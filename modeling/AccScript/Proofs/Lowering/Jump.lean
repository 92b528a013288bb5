import AccScript.Proofs.Lowering.Control

/-!
# Jumps out of statements

A jump leaves boundaries, and with them the environments of loops.  It also runs copies of
finalizers, each as if control were already outside of what it finalizes.

`Ready` collects what the code of a statement may rely on: the targets of its jumps, the regions
around it and the finalizers that its jumps run.  It never speaks of the assembler, so it survives
everything that happens inside of the statement.

A copy of a finalizer runs while the assembler still knows the jump targets inside of what is being
left.  Such a target is *stale*: its depth counts boundaries that are gone.  If no jump leaves a
finalizer, then its jumps find a target of their own first.
-/

namespace AccScript

open Asm Lower

variable {α β : Type} {S : Setting} {env : Env} {ls : List Label} {Γ : Frame} {n : Nat}
  {target : JumpTarget} {targets : List JumpTarget} {name : Option String} {a : Assembler}

/-! ## Jump targets -/

def JumpTarget.Accepts (target : JumpTarget) : Option String → Prop
  | some name => target.names.contains name = true
  | none => target.acceptsUnlabelled = true

/-- A target within the boundaries, whose label has the depth of its place. -/
def Setting.Valid (S : Setting) (Γ : Frame) (target : JumpTarget) : Prop :=
  ∃ outer, outer <:+ Γ.boundaries ∧ outer.length = target.depth + 1 ∧
    Γ.depths.label target.label = some (S.depth outer)

/-- The jumps that are allowed find their targets. -/
structure Covers (S : Setting) (Γ : Frame) (targets : List JumpTarget)
    (allowed : Option String → Prop) : Prop where
  found : S.discipline = .lawful → ∀ name, allowed name →
    ∃ t ∈ targets, t.depth < Γ.boundaries.length ∧ t.Accepts name
  /-- Targets behind the current ones may be stale, but then every jump is accepted before. -/
  valid : S.discipline = .contained → ∃ current stale, targets = current ++ stale ∧
    (∀ t ∈ current, S.Valid Γ t) ∧
    (stale = [] ∨ ∀ name, allowed name → ∃ t ∈ current, t.Accepts name)

/-- The search that a jump makes. -/
theorem findTarget?_eq_some (h : a.findTarget? targets name = some target) :
    target ∈ targets ∧ target.depth < a.boundaries.length ∧ target.Accepts name := by
  have holds := List.find?_some h
  simp only [Bool.and_eq_true, decide_eq_true_eq] at holds
  refine ⟨List.mem_of_find?_eq_some h, holds.1, ?_⟩
  cases name with
  | none => exact holds.2
  | some name => exact holds.2

theorem findTarget?_isSome (mem : target ∈ targets) (inside : target.depth < a.boundaries.length)
    (accepts : target.Accepts name) : (a.findTarget? targets name).isSome = true := by
  refine List.find?_isSome.mpr ⟨target, mem, ?_⟩
  simp only [Bool.and_eq_true, decide_eq_true_eq]
  refine ⟨inside, ?_⟩
  cases name with
  | none => exact accepts
  | some name => exact accepts

theorem Setting.Valid.depth_lt (h : S.Valid Γ target) : target.depth < Γ.boundaries.length := by
  obtain ⟨outer, suffix, length, -⟩ := h
  have := suffix.length_le
  omega

theorem Covers.valid_of_find {allowed : Option String → Prop}
    (covers : Covers S Γ targets allowed) (contained : S.discipline = .contained)
    (may : allowed name)
    (boundaries : a.boundaries = Γ.boundaries)
    (found : a.findTarget? targets name = some target) : S.Valid Γ target := by
  obtain ⟨current, stale, rfl, valid, complete⟩ := covers.valid contained
  have current_of : target ∈ current := by
    rcases complete with rfl | complete
    · simpa using (findTarget?_eq_some found).1
    · obtain ⟨t, mem, accepts⟩ := complete name may
      have inside : t.depth < a.boundaries.length := by
        rw [boundaries]
        exact (valid t mem).depth_lt
      have first : (a.findTarget? current name).isSome = true :=
        findTarget?_isSome mem inside accepts
      obtain ⟨chosen, hit⟩ := Option.isSome_iff_exists.mp first
      have same : a.findTarget? (current ++ stale) name = some chosen := by
        unfold Assembler.findTarget? at hit ⊢
        rw [List.find?_append, hit, Option.some_or]
      rw [found] at same
      cases same
      exact (findTarget?_eq_some hit).1
  exact valid target current_of

/-! ## What statements rely on -/

/-- A finalizer runs outside of what it finalizes, whatever is known by then. -/
def Closes (S : Setting) (Γ : Frame) (rest : List Boundary) (code : Code) : Prop :=
  ∀ Δ : Frame, Δ.boundaries = rest → Γ.depths.Le Δ.depths → Γ.breakables ⊆ Δ.breakables →
    Γ.continuables ⊆ Δ.continuables →
    Spec S (Held S Δ (S.depth rest)) code (fun _ => Held S Δ (S.depth rest))

/-- What the code of a statement relies on; `pending` are the labels right in front of it, which
no target has yet. -/
structure Ready (S : Setting) (ctx : JumpContext) (pending : List String) (Γ : Frame) (env : Env) :
    Prop where
  breaks : Covers S Γ Γ.breakables fun name =>
    ctx.CanBreak name ∧ ∀ x ∈ pending, name ≠ some x
  continues : Covers S Γ Γ.continuables ctx.CanContinue
  regions : ∀ i rest, .region i :: rest <:+ Γ.boundaries →
    Γ.depths.region i = some (S.depth rest)
  finalizers : ∀ i rest, .finalizer i :: rest <:+ Γ.boundaries →
    ∃ code, env.finalizers[i]? = some code ∧ Closes S Γ rest code
  /-- A constructor has its own `this`. -/
  this : S.surveyed → env.unitKind? = some .constructor →
    ∃ v, S.tree.findLocal? S.functionScope HiddenName.this = some v

/-- The scope of code in the unit fits the boundaries. -/
structure Setting.Inhabits (S : Setting) (env : Env) (boundaries : List Boundary) : Prop where
  anchors : S.Anchors env
  outside : env.inFields = false
  opened : S.surveyed → boundaries.filterMap Boundary.loop? ++
    S.tree.environments S.functionScope = S.tree.environments env.scope

theorem Setting.Inhabits.aligned
    {boundaries : List Boundary} (h : S.Inhabits env boundaries) : S.Aligned env boundaries := by
  refine ⟨h.anchors, fun known => ⟨_, h.opened known⟩, fun known => ?_⟩
  rw [countedLoops, h.outside]
  exact h.opened known

/-- Code keeps frame and depth if the depth is that of the boundaries and jumps find what they
rely on. -/
def Steady (S : Setting) (ctx : JumpContext) (pending : List String) (env : Env) (ls : List Label)
    (m : Lower α) : Prop :=
  ∀ Γ, Ready S ctx pending Γ env → S.Inhabits env Γ.boundaries →
    (∀ l ∈ ls, Γ.depths.label l = some (S.depth Γ.boundaries)) →
    Spec S (Held S Γ (S.depth Γ.boundaries)) (m env) (fun _ => Held S Γ (S.depth Γ.boundaries))

/-! ## Knowing more depths -/

section Mono

variable {Δ : Frame} {ctx : JumpContext} {pending : List String}

theorem Closes.mono
    {rest : List Boundary} {code : Code} (h : Closes S Γ rest code) (le : Γ.depths.Le Δ.depths)
    (breakables : Γ.breakables ⊆ Δ.breakables) (continuables : Γ.continuables ⊆ Δ.continuables) :
    Closes S Δ rest code :=
  fun Θ boundaries le' breakables' continuables' =>
    h Θ boundaries (le.trans le') (fun _ mem => breakables' (breakables mem))
      (fun _ mem => continuables' (continuables mem))

theorem Setting.Valid.mono (h : S.Valid Γ target) (suffix : Γ.boundaries <:+ Δ.boundaries)
    (le : Γ.depths.Le Δ.depths) : S.Valid Δ target := by
  obtain ⟨outer, within, length, depth⟩ := h
  exact ⟨outer, within.trans suffix, length, le.label _ _ depth⟩

theorem Covers.mono {allowed allowed' : Option String → Prop}
    (h : Covers S Γ targets allowed) (suffix : Γ.boundaries <:+ Δ.boundaries)
    (le : Γ.depths.Le Δ.depths) (fewer : ∀ name, allowed' name → allowed name) :
    Covers S Δ targets allowed' := by
  refine ⟨fun lawful name may => ?_, fun contained => ?_⟩
  · obtain ⟨t, mem, inside, accepts⟩ := h.found lawful name (fewer name may)
    exact ⟨t, mem, Nat.lt_of_lt_of_le inside suffix.length_le, accepts⟩
  · obtain ⟨current, stale, same, valid, complete⟩ := h.valid contained
    refine ⟨current, stale, same, fun t mem => (valid t mem).mono suffix le, ?_⟩
    exact complete.imp id fun all name may => all name (fewer name may)

theorem Ready.mono (h : Ready S ctx pending Γ env) (boundaries : Δ.boundaries = Γ.boundaries)
    (breakables : Δ.breakables = Γ.breakables) (continuables : Δ.continuables = Γ.continuables)
    (le : Γ.depths.Le Δ.depths) : Ready S ctx pending Δ env := by
  have suffix : Γ.boundaries <:+ Δ.boundaries := boundaries ▸ List.suffix_refl _
  refine ⟨?_, ?_, ?_, ?_, h.this⟩
  · rw [breakables]
    exact h.breaks.mono suffix le fun _ may => may
  · rw [continuables]
    exact h.continues.mono suffix le fun _ may => may
  · intro i rest within
    rw [boundaries] at within
    exact le.region i _ (h.regions i rest within)
  · intro i rest within
    rw [boundaries] at within
    obtain ⟨code, found, closes⟩ := h.finalizers i rest within
    refine ⟨code, found, closes.mono le ?_ ?_⟩
    · rw [breakables]
      exact List.Subset.refl _
    · rw [continuables]
      exact List.Subset.refl _

end Mono

namespace Steady

variable {ctx : JumpContext} {pending : List String}

theorem of_calm {m : Lower α} (h : Calm S env ls m) : Steady S ctx pending env ls m :=
  fun Γ _ inhabits known => h Γ _ inhabits.aligned known

theorem pure (x : α) : Steady S ctx pending env ls (Pure.pure x) :=
  of_calm (.pure x)

theorem bind {m : Lower α} {f : α → Lower β} (first : Steady S ctx pending env ls m)
    (next : ∀ x, Steady S ctx pending env ls (f x)) : Steady S ctx pending env ls (m >>= f) :=
  fun Γ ready inhabits known =>
    (first Γ ready inhabits known).bind fun x => next x Γ ready inhabits known

theorem get {f : Assembler → Lower β} (h : ∀ a, Steady S ctx pending env ls (f a)) :
    Steady S ctx pending env ls (MonadState.get >>= f) :=
  fun Γ ready inhabits known => ⟨fun a held => (h a Γ ready inhabits known).outcome a held⟩

theorem read {f : Env → Lower β} (h : Steady S ctx pending env ls (f env)) :
    Steady S ctx pending env ls (MonadReader.read >>= f) :=
  h

theorem ite {p : Prop} [Decidable p] {m m' : Lower β} (h : p → Steady S ctx pending env ls m)
    (h' : ¬p → Steady S ctx pending env ls m') :
    Steady S ctx pending env ls (if p then m else m') := by
  split
  · exact h ‹p›
  · exact h' ‹¬p›

theorem mono {ls' : List Label} {m : Lower β} (h : Steady S ctx pending env ls m)
    (sub : ls ⊆ ls') : Steady S ctx pending env ls' m :=
  fun Γ ready inhabits known => h Γ ready inhabits fun l mem => known l (sub mem)

theorem skip {m : Lower β} {l : Label} (h : Steady S ctx pending env ls m) :
    Steady S ctx pending env (l :: ls) m :=
  h.mono (List.subset_cons_self l ls)

theorem fresh {f : Label → Lower β} (h : ∀ l, Steady S ctx pending env (l :: ls) (f l)) :
    Steady S ctx pending env ls (liftM Asm.freshLabel >>= f) := by
  intro Γ ready inhabits known
  show Spec S (Held S Γ _) (Asm.freshLabel >>= fun l => f l env) _
  refine spec_fresh (S.depth Γ.boundaries) fun l unknown => ?_
  have wider := Depths.le_setLabel unknown (S.depth Γ.boundaries)
  have ready' : Ready S ctx pending (Γ.setLabel l (S.depth Γ.boundaries)) env :=
    ready.mono rfl rfl rfl wider
  have body := h l _ ready' inhabits (by
    intro l' mem
    rcases List.mem_cons.mp mem with rfl | mem
    · exact Depths.setLabel_label_self _ _ _
    · exact wider.label l' _ (known l' mem))
  exact body.weaken (fun _ h => h) fun _ _ h =>
    h.forget wider (List.Subset.refl _) rfl

end Steady

theorem Steady.then {m : Lower α} {m' : Lower β} (first : Steady S ctx pending env ls m)
    (next : Steady S ctx pending env ls m') : Steady S ctx pending env ls (m >>= fun _ => m') :=
  first.bind fun _ => next

/-! ## Leaving boundaries -/

theorem Plain.forM {f : α → Code} {items : List α} (h : ∀ x ∈ items, Plain S ls (f x)) :
    Plain S ls (items.forM f) := by
  induction items with
  | nil => exact .pure ()
  | cons x rest ih =>
    have others := ih fun y mem => h y (.tail _ mem)
    exact (h x (.head _)).then others

theorem Plain.spec {m : Asm α} (h : Plain S [] m) (Γ : Frame) (n : Nat) :
    Spec S (Held S Γ n) m (fun _ => Held S Γ n) :=
  h Γ n nofun

theorem spec_outside {left rest : List Boundary} (split : left ++ rest = Γ.boundaries) {code : Code}
    (runs : Spec S (Held S (Γ.within rest) n) code (fun _ => Held S (Γ.within rest) n)) :
    Spec S (Held S Γ n) (outside left rest code) (fun _ => Held S Γ n) := by
  have leave : Spec S (Held S Γ n) (modify fun a => { a with boundaries := rest })
      (fun _ => Held S (Γ.within rest) n) :=
    ⟨fun a h => h.rebound rfl rfl h.breakables h.continuables rfl⟩
  have enter : Spec S (Held S (Γ.within rest) n)
      (modify fun a => { a with boundaries := left ++ a.boundaries }) (fun _ => Held S Γ n) := by
    refine ⟨fun a h => ?_⟩
    have back : left ++ a.boundaries = Γ.boundaries := by
      rw [h.boundaries]
      exact split
    exact h.rebound rfl back h.breakables h.continuables rfl
  have closes : Plain S [] ((left.filterMap Boundary.region?).reverse.forM closeTry) :=
    .forM fun i _ => plain_closeTry i
  have resumes : Plain S [] ((left.filterMap Boundary.region?).reverse.forM resumeTry) :=
    .forM fun i _ => plain_resumeTry i
  exact leave.then <| (closes.spec _ n).then <| runs.then <| (resumes.spec _ n).then enter

theorem depth_cons (boundary : Boundary) (rest : List Boundary) : S.depth (boundary :: rest) =
      S.depth rest + (if boundary.loop?.isSome then 1 else 0) := by
  cases boundary <;> simp [Setting.depth, List.filterMap_cons, Boundary.loop?, Nat.add_assoc]

theorem spec_popEnvironment : Spec S (Held S Γ (n + 1)) popEnvironment (fun _ => Held S Γ n) :=
  spec_emit rfl (fun _ _ => trivial) rfl fun _ => trivial

theorem spec_unwindFrom {finalizers : List Code} (depth : Nat)
    (closes : ∀ i rest, .finalizer i :: rest <:+ Γ.boundaries → ∀ code,
      finalizers[i]? = some code → Closes S Γ rest code)
    (current : List Boundary) (left : List Boundary) (split : left ++ current = Γ.boundaries)
    {outer : List Boundary} (suffix : outer <:+ current) (length : outer.length = depth) :
    Spec S (Held S Γ (S.depth current)) (unwindFrom finalizers depth left current)
      (fun _ => Held S Γ (S.depth outer)) := by
  induction current generalizing left with
  | nil =>
    obtain rfl : outer = [] := List.suffix_nil.mp suffix
    exact .pure fun _ h => h
  | cons boundary rest ih =>
    unfold unwindFrom
    by_cases inside : rest.length < depth
    · rw [if_pos inside]
      obtain rfl : outer = boundary :: rest :=
        suffix.eq_of_length_le (by simp only [List.length_cons]; omega)
      exact .pure fun _ h => h
    · rw [if_neg inside]
      have further : outer <:+ rest := by
        rcases List.suffix_cons_iff.mp suffix with rfl | further
        · simp only [List.length_cons] at length
          omega
        · exact further
      have shifted : left ++ [boundary] ++ rest = Γ.boundaries := by simpa using split
      have others := ih (left ++ [boundary]) shifted further
      have same (plain : boundary.loop? = none) : S.depth (boundary :: rest) = S.depth rest := by
        simp [depth_cons, plain]
      cases boundary with
      | environment loop => exact spec_popEnvironment.then others
      | finalizer i =>
        rw [same rfl]
        have here : .finalizer i :: rest <:+ Γ.boundaries := ⟨left, split⟩
        refine .orBroken fun code found => ?_
        have runs := closes i rest here code found (Γ.within rest) rfl (.refl _)
          (List.Subset.refl _) (List.Subset.refl _)
        exact (spec_outside shifted runs).then others
      | breakTarget =>
        rw [same rfl]
        exact others
      | continueTarget =>
        rw [same rfl]
        exact others
      | region i =>
        rw [same rfl]
        exact others

/-! ## Jumps -/

section Jumps

variable {ctx : JumpContext} {pending : List String} {name : String}

theorem spec_unwind
    (ready : Ready S ctx pending Γ env) {outer : List Boundary} (suffix : outer <:+ Γ.boundaries) :
    Spec S (Held S Γ (S.depth Γ.boundaries)) (unwind outer.length env)
      (fun _ => Held S Γ (S.depth outer)) := by
  refine .get fun a held => ?_
  rw [held.boundaries]
  refine (spec_unwindFrom outer.length ?_ Γ.boundaries [] rfl suffix rfl).weaken
    (fun b same => same ▸ held) fun _ _ h => h
  intro i rest within code found
  obtain ⟨own, hit, closes⟩ := ready.finalizers i rest within
  rw [hit] at found
  cases found
  exact closes

theorem spec_jumpTo (ready : Ready S ctx pending Γ env)
    (inside : target.depth < Γ.boundaries.length)
    (valid : S.discipline = .contained → S.Valid Γ target) (word : JumpWord)
    (name : Option String) (m : Nat) :
    Spec S (Held S Γ (S.depth Γ.boundaries)) (jumpTo word name target env)
      (fun _ => Held S Γ m) := by
  obtain ⟨outer, suffix, length⟩ : ∃ outer, outer <:+ Γ.boundaries ∧
      outer.length = target.depth + 1 :=
    ⟨Γ.boundaries.drop (Γ.boundaries.length - (target.depth + 1)), List.drop_suffix _ _, by
      rw [List.length_drop]
      omega⟩
  have unwinds := spec_unwind ready suffix
  rw [length] at unwinds
  have label : S.discipline = .contained →
      Γ.depths.label target.label = some (S.depth outer) := by
    intro contained
    obtain ⟨outer', suffix', length', depth⟩ := valid contained
    have same : outer' = outer := by
      rw [List.suffix_iff_eq_drop.mp suffix', List.suffix_iff_eq_drop.mp suffix, length', length]
    rw [← same]
    exact depth
  have jumps : ∀ start, Spec S (Held S Γ (S.depth outer))
      (emitAt (.jump word name start) (.jmp target.label) env) (fun _ => Held S Γ m) :=
    fun _ => spec_emitAt rfl (fun _ => label) (.inl rfl) fun _ _ => trivial
  refine .inspect fun a held => Spec.weaken (unwinds.follow fun _ => jumps a.code.size) ?_ ?_
  · exact fun b same => same ▸ held
  · exact fun _ _ h => h

/-- A jump to the innermost of some targets, which exists if the jump is allowed. -/
theorem spec_jumpAmong (ready : Ready S ctx pending Γ env) (word : JumpWord) {targets : List JumpTarget}
    {allowed : Option String → Prop} (covers : Covers S Γ targets allowed) (name : Option String)
    (may : S.discipline ≠ .unknown → allowed name) {failure : Failure} {a : Assembler}
    (held : Held S Γ (S.depth Γ.boundaries) a) :
    Spec S (· = a) ((match a.findTarget? targets name with
      | some target => jumpTo word name target
      | none => throw failure : Lower Unit) env) fun _ => Held S Γ (S.depth Γ.boundaries) := by
  cases found : a.findTarget? targets name with
  | some target =>
    refine (spec_jumpTo ready ?_ (fun contained => ?_) word name _).weaken
      (fun b same => same ▸ held) fun _ _ h => h
    · rw [← held.boundaries]
      exact (findTarget?_eq_some found).2.1
    · exact covers.valid_of_find contained (may (by simp [contained])) held.boundaries found
  | none =>
    refine .throw fun _ lawful => ?_
    obtain ⟨t, mem, inside, accepts⟩ := covers.found lawful name (may (by simp [lawful]))
    rw [← held.boundaries] at inside
    have hit := findTarget?_isSome mem inside accepts
    rw [found] at hit
    cases hit

theorem steady_breakStatement (name : Option String) (position : Position)
    (may : S.discipline ≠ .unknown → ctx.CanBreak name) :
    Steady S ctx [] env ls (breakStatement name position) := by
  intro Γ ready inhabits _
  refine .get fun a held => ?_
  rw [Assembler.findBreakable?, held.breakables]
  exact spec_jumpAmong ready .break ready.breaks name (fun known => ⟨may known, nofun⟩) held

theorem steady_continueStatement (name : Option String) (position : Position)
    (may : S.discipline ≠ .unknown → ctx.CanContinue name) :
    Steady S ctx pending env ls (continueStatement name position) := by
  intro Γ ready inhabits _
  refine .get fun a held => ?_
  rw [Assembler.findContinuable?, held.continuables]
  exact spec_jumpAmong ready .continue ready.continues name may held

/-! ## Return and throw -/

theorem spec_return {i : Instruction} (returns : i = .return ∨ i = .returnUndefined) (m : Nat) :
    Spec S (Held S Γ S.base) (emit i) (fun _ => Held S Γ m) := by
  rcases returns with rfl | rfl
  · exact spec_emit rfl (fun _ _ => rfl) (.inl rfl) fun _ => trivial
  · exact spec_emit rfl (fun _ _ => rfl) (.inl rfl) fun _ => trivial

theorem spec_result
    {i : Instruction} (returns : i = .return ∨ i = .returnUndefined) (start m : Nat) :
    Spec S (Held S Γ S.base) (emitAt (.result start) i env) (fun _ => Held S Γ m) := by
  rcases returns with rfl | rfl
  · exact spec_emitAt rfl (fun _ _ => rfl) (.inl rfl) fun _ _ => trivial
  · exact spec_emitAt rfl (fun _ _ => rfl) (.inl rfl) fun _ _ => trivial

theorem steady_returnUndefined (start : Nat) : Steady S ctx pending env ls (do
      unwind 0
      emitAt (.result start) .returnUndefined) :=
  fun _ ready _ _ => (spec_unwind ready List.nil_suffix).follow fun _ => spec_result (.inr rfl) start _

theorem spec_unwindWithValue (ready : Ready S ctx pending Γ env) :
    Spec S (Held S Γ (S.depth Γ.boundaries)) (unwindWithValue env) (fun _ => Held S Γ S.base) := by
  have unwinds := spec_unwind ready (List.nil_suffix)
  have saves : Spec S (Held S Γ (S.depth Γ.boundaries)) ((do
      let value ← storeTemp
      unwind 0
      lda value
      freeTemps [value] : Lower Unit) env) (fun _ => Held S Γ S.base) :=
    (plain_storeTemp.spec Γ _).step fun value => unwinds.follow fun _ =>
      ((plain_lda value).spec Γ _).before <| (plain_freeTemps _).spec Γ _
  refine .inspect fun a held => ?_
  split
  · exact saves.weaken (fun b same => same ▸ held) fun _ _ h => h
  · exact unwinds.weaken (fun b same => same ▸ held) fun _ _ h => h

theorem steady_returnAccumulator : Steady S ctx pending env ls returnAccumulator :=
  .get fun _ _ ready _ _ => (spec_unwindWithValue ready).follow fun _ => spec_result (.inl rfl) _ _

theorem steady_returnStatement
    (value : Option Expr) {code : Option (Lower Unit)} (h : ∀ m ∈ code, Calm S env [] m) :
    Steady S ctx pending env ls (returnStatement value code) := by
  intro Γ ready inhabits known
  have this : env.unitKind? = some .constructor → S.surveyed →
      S.Reaches env.scope HiddenName.this := by
    intro constructor known
    obtain ⟨v, found⟩ := ready.this known constructor
    exact (inhabits.anchors.belongs known).reaches found
  suffices steady : Steady S ctx pending env ls (returnStatement value code) from
    steady Γ ready inhabits known
  refine .read (.ite (fun derived => ?_) fun _ => ?_)
  · simp only [Bool.and_eq_true, decide_eq_true_eq] at derived
    have reached := this derived.1
    have values : (calming S).Steady env (code.getD (pure ())) (pure ()) := fun _ => by
      cases code with
      | none => exact Calm.stay (.pure ())
      | some m => exact (h m rfl).stay
    exact .bind (.of_calm (.of_steady (Judgement.steady_derivedReturnValue value reached values)))
      fun _ => steady_returnAccumulator
  · cases code with
    | some m =>
      exact .bind (.of_calm ((h m rfl).mono (List.nil_subset ls))) fun _ => steady_returnAccumulator
    | none =>
      refine .ite (fun constructor => ?_) fun _ => .get fun _ =>
        steady_returnUndefined _
      have reached := this (by simpa using constructor)
      exact .bind (.of_calm (calm_loadVariable reached)) fun _ =>
        steady_returnAccumulator

theorem spec_popToRegion (ready : Ready S ctx pending Γ env) (current : List Boundary)
    (suffix : current <:+ Γ.boundaries) :
    ∃ m, (match innermostRegion? current with
        | some i => Γ.depths.region i = some m
        | none => m = S.base) ∧
      Spec S (Held S Γ (S.depth current)) (popToRegion current) (fun _ => Held S Γ m) := by
  induction current with
  | nil => exact ⟨S.base, rfl, .pure fun _ h => h⟩
  | cons boundary rest ih =>
    have further : rest <:+ Γ.boundaries := (List.suffix_cons boundary rest).trans suffix
    obtain ⟨m, depth, pops⟩ := ih further
    have same (plain : boundary.loop? = none) : S.depth (boundary :: rest) = S.depth rest := by
      simp [depth_cons, plain]
    cases boundary with
    | region i =>
      refine ⟨S.depth rest, ready.regions i rest suffix, ?_⟩
      rw [same rfl]
      exact .pure fun _ h => h
    | environment loop => exact ⟨m, depth, spec_popEnvironment.then <| pops⟩
    | breakTarget =>
      refine ⟨m, depth, ?_⟩
      rw [same rfl]
      exact pops
    | continueTarget =>
      refine ⟨m, depth, ?_⟩
      rw [same rfl]
      exact pops
    | finalizer i =>
      refine ⟨m, depth, ?_⟩
      rw [same rfl]
      exact pops

theorem steady_throwStatement {value : Lower Unit} (h : Calm S env ls value) :
    Steady S ctx pending env ls (throwStatement value) := by
  refine .bind (.of_calm h) fun _ Γ ready inhabits known => ?_
  obtain ⟨m, depth, pops⟩ := spec_popToRegion ready Γ.boundaries (List.suffix_refl _)
  refine .inspect fun a held => ?_
  rw [held.boundaries]
  refine Spec.weaken (pops.before ?_) (fun b same => same ▸ held) fun _ _ h => h
  refine spec_emitAt rfl (fun _ _ site own _ => ?_) (.inl rfl) fun _ _ => trivial
  cases own
  exact depth

end Jumps

end AccScript
