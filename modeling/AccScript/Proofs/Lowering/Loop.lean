import AccScript.Proofs.Lowering.Branch

/-!
# Loops

A loop whose variables are captured pushes an environment for every iteration.  Inside of an
iteration its code is steady in the scope of the loop.  Around the iterations it is not: the scope
of the loop is current, but its environment is not there yet.  `LoopCode` is the judgement for
code at that place.  Its labels come in two kinds, for places outside and inside of an iteration.
-/

namespace AccScript

open Asm Lower

variable {α β : Type} {S : Setting} {ctx : JumpContext} {pending names : List String} {env : Env}
  {ls outer inner : List Label} {Γ : Frame} {n : Nat} {slots : Option (List String)}
  {loop : ScopeId} {node : NodeId} {body : Lower Unit} {boundaries : List Boundary} {next : Label}
  {slot : Nat}

/-! ## Environments -/

theorem spec_environmentInstruction (slotNames : List String) :
    Spec S (Held S Γ n) (environmentInstruction slotNames) (fun i a =>
      (i = .newLexEnv slotNames.length ∨ ∃ info, i = .newLexEnvWithName slotNames.length info) ∧
        Held S Γ n a) := by
  refine .get fun a held => ?_
  split
  · refine Spec.bind ((plain_addLiteral _).spec Γ n) (fun info => ?_) |>.weaken
      (fun b same => same ▸ held) fun _ _ h => h
    exact .pure fun b held => ⟨.inr ⟨info, rfl⟩, held⟩
  · exact .pure fun b same => ⟨.inl rfl, same ▸ held⟩

theorem spec_enterEnvironment {scope : ScopeId} {slotNames : List String}
    (same : S.tree.slotNames scope = slotNames) :
    Spec S (Held S Γ n) (enterEnvironment scope slotNames env) (fun _ => Held S Γ (n + 1)) := by
  refine (spec_environmentInstruction slotNames).step fun i => .given fun shape => ?_
  have count : slotNames.length = (S.tree.slotNames scope).length := by rw [same]
  rcases shape with rfl | ⟨info, rfl⟩
  · exact spec_emitAt rfl (fun _ _ => trivial) rfl fun _ _ => ⟨_, scope, rfl, rfl, count⟩
  · exact spec_emitAt rfl (fun _ _ => trivial) rfl fun _ _ => ⟨_, scope, rfl, rfl, count⟩

/-! ## Iterations -/

def Setting.HasSlots (S : Setting) (loop : ScopeId) : Option (List String) → Prop
  | some slots => S.tree.slotNames loop = slots ∧ S.tree.needsEnv loop = true
  | none => S.tree.needsEnv loop = false

def iterationBoundaries (loop : ScopeId) (slots : Option (List String))
    (boundaries : List Boundary) : List Boundary :=
  match slots with
  | some _ => .environment loop :: boundaries
  | none => boundaries

def Frame.iteration (Γ : Frame) (loop : ScopeId) (slots : Option (List String)) : Frame :=
  Γ.within (iterationBoundaries loop slots Γ.boundaries)

theorem spec_loopSlots (anchors : S.Anchors env) (loop : ScopeId) :
    Spec S (Held S Γ n) (loopSlots loop env) (fun slots a => S.HasSlots loop slots ∧ Held S Γ n a) := by
  have tree : env.tree = S.tree := by rw [Env.tree, anchors.survey, Setting.tree]
  refine .consult (.require fun data found => .pure fun a held => ⟨?_, held⟩)
  rw [tree] at found
  cases needed : data.env.filter LexicalEnv.isNeeded with
  | none => exact ScopeTree.needsEnv_of_not_needed found needed
  | some env => exact ScopeTree.slotNames_of_needed found needed

theorem spec_pushIteration (has : S.HasSlots loop slots) :
    Spec S (Held S Γ (S.depth Γ.boundaries)) (pushIteration loop slots env) (fun _ =>
      Held S (Γ.iteration loop slots) (S.depth (Γ.iteration loop slots).boundaries)) := by
  cases slots with
  | none => exact .pure fun _ held => held
  | some slots => exact (spec_enterEnvironment has.1).follow fun _ => spec_startBoundary _

theorem spec_popIteration :
    Spec S (Held S (Γ.iteration loop slots) (S.depth (Γ.iteration loop slots).boundaries))
      (popIteration loop slots) (fun _ => Held S Γ (S.depth Γ.boundaries)) := by
  cases slots with
  | none => exact .pure fun _ held => held
  | some slots => exact (spec_endBoundary _).then spec_popEnvironment

theorem Ready.iteration
    (h : Ready S ctx pending Γ env) (loop : ScopeId) (slots : Option (List String)) :
    Ready S ctx pending (Γ.iteration loop slots) env := by
  cases slots with
  | none => exact h
  | some _ => exact h.pushEnvironment loop

theorem Setting.Inhabits.iteration (h : S.Inhabits env boundaries)
    (opens : S.surveyed → S.Opens node .loop env.scope loop) (has : S.HasSlots loop slots) :
    S.Inhabits { env with scope := loop } (iterationBoundaries loop slots boundaries) where
  anchors := h.anchors.withScope opens nofun
  outside := h.outside
  opened known := by
    have around := h.opened known
    have lexical : S.tree.isLexical loop = true := (opens known).kindIs _
    have environments := ScopeTree.environments_of_parent (t := S.tree)
      (S.wellFormed known).ordered (opens known).parent?_eq
    cases slots with
    | none =>
      rw [show S.tree.needsEnv loop = false from has, Bool.and_false] at environments
      exact around.trans environments.symm
    | some slots =>
      rw [lexical, has.2] at environments
      exact (congrArg (loop :: ·) around).trans environments.symm

/-! ## Code around iterations -/

/-- Code in the scope of a loop that starts and ends outside of an iteration; `outer` are labels
for places there, `inner` labels for places inside of an iteration. -/
def LoopCode (S : Setting) (ctx : JumpContext) (pending : List String) (env : Env)
    (slots : Option (List String)) (outer inner : List Label) (m : Lower α) : Prop :=
  ∀ Γ, Ready S ctx pending Γ env →
    S.Inhabits env (iterationBoundaries env.scope slots Γ.boundaries) →
    (∀ l ∈ outer, Γ.depths.label l = some (S.depth Γ.boundaries)) →
    (∀ l ∈ inner, Γ.depths.label l =
      some (S.depth (iterationBoundaries env.scope slots Γ.boundaries))) →
    Spec S (Held S Γ (S.depth Γ.boundaries)) (m env) (fun _ => Held S Γ (S.depth Γ.boundaries))

namespace LoopCode

theorem bind {m : Lower α} {f : α → Lower β} (first : LoopCode S ctx pending env slots outer inner m)
    (next : ∀ x, LoopCode S ctx pending env slots outer inner (f x)) :
    LoopCode S ctx pending env slots outer inner (m >>= f) :=
  fun Γ ready inhabits known known' =>
    (first Γ ready inhabits known known').bind fun x => next x Γ ready inhabits known known'

theorem read {f : Env → Lower β} (h : LoopCode S ctx pending env slots outer inner (f env)) :
    LoopCode S ctx pending env slots outer inner (MonadReader.read >>= f) :=
  h

theorem of_plain {m : Asm α} (h : Plain S outer m) :
    LoopCode S ctx pending env slots outer inner (liftM m) :=
  fun Γ _ _ known _ => h Γ _ known

theorem step {m : Asm α} {f : α → Lower β} (first : Plain S outer m)
    (next : ∀ x, LoopCode S ctx pending env slots outer inner (f x)) :
    LoopCode S ctx pending env slots outer inner (liftM m >>= f) :=
  (of_plain first).bind next

theorem freshOuter {f : Label → Lower β}
    (h : ∀ l, LoopCode S ctx pending env slots (l :: outer) inner (f l)) :
    LoopCode S ctx pending env slots outer inner (liftM freshLabel >>= f) := by
  intro Γ ready inhabits known known'
  refine .fresh (S.depth Γ.boundaries) fun l unknown => ?_
  have wider := Depths.le_setLabel unknown (S.depth Γ.boundaries)
  refine h l _ (ready.setLabel unknown _) inhabits (List.forall_mem_cons.mpr ⟨?_, ?_⟩) ?_
  · exact Depths.setLabel_label_self _ _ _
  · exact fun l mem => wider.label l _ (known l mem)
  · exact fun l mem => wider.label l _ (known' l mem)

theorem freshInner {f : Label → Lower β}
    (h : ∀ l, LoopCode S ctx pending env slots outer (l :: inner) (f l)) :
    LoopCode S ctx pending env slots outer inner (liftM freshLabel >>= f) := by
  intro Γ ready inhabits known known'
  refine .fresh (S.depth (iterationBoundaries env.scope slots Γ.boundaries)) fun l unknown => ?_
  have wider := Depths.le_setLabel unknown
    (S.depth (iterationBoundaries env.scope slots Γ.boundaries))
  refine h l _ (ready.setLabel unknown _) inhabits ?_ (List.forall_mem_cons.mpr ⟨?_, ?_⟩)
  · exact fun l mem => wider.label l _ (known l mem)
  · exact Depths.setLabel_label_self _ _ _
  · exact fun l mem => wider.label l _ (known' l mem)

end LoopCode

theorem LoopCode.then {m : Lower α} {m' : Lower β}
    (first : LoopCode S ctx pending env slots outer inner m)
    (next : LoopCode S ctx pending env slots outer inner m') :
    LoopCode S ctx pending env slots outer inner (m >>= fun _ => m') :=
  first.bind fun _ => next

theorem filterMap_iterationBoundaries (loop : ScopeId) (boundaries : List Boundary) :
    (iterationBoundaries loop slots boundaries).filterMap Boundary.loop? =
      slots.toList.map (fun _ => loop) ++ boundaries.filterMap Boundary.loop? := by
  cases slots <;> rfl

theorem depth_iterationBoundaries (loop : ScopeId) (boundaries : List Boundary) :
    S.depth (iterationBoundaries loop slots boundaries) =
      S.depth boundaries + slots.toList.length := by
  rw [Setting.depth, Setting.depth, filterMap_iterationBoundaries, List.length_append,
    List.length_map]
  omega

theorem Setting.Inhabits.around
    (h : S.Inhabits env (iterationBoundaries env.scope slots boundaries))
    {boundary : Boundary} (plain : boundary.loop? = none) :
    S.Inhabits env (iterationBoundaries env.scope slots (boundary :: boundaries)) := by
  refine ⟨h.anchors, h.outside, fun known => ?_⟩
  have opened := h.opened known
  rw [filterMap_iterationBoundaries] at opened ⊢
  rwa [List.filterMap_cons_none plain]

theorem depth_around (loop : ScopeId) (boundaries : List Boundary) {boundary : Boundary}
    (plain : boundary.loop? = none) :
    S.depth (iterationBoundaries loop slots (boundary :: boundaries)) =
      S.depth (iterationBoundaries loop slots boundaries) := by
  rw [depth_iterationBoundaries, depth_iterationBoundaries, depth_push boundaries plain]

namespace LoopCode

theorem breakable (names : List String) {done : Label} (mem : done ∈ outer)
    (h : LoopCode S ctx.switch [] env slots outer inner body) :
    LoopCode S ctx names env slots outer inner (do
      beginBreakable done names true
      body
      endBreakable
      label done) := by
  intro Γ ready inhabits known known'
  have own := known done mem
  have runs := h _ (ready.openSwitch own) (inhabits.around rfl) known (by
    intro l mem
    exact (known' l mem).trans (congrArg some (depth_around env.scope Γ.boundaries rfl).symm))
  exact (spec_beginBreakable done names true).before <| runs.follow fun _ =>
    spec_endBreakable.before <| spec_label own

theorem iteration
    {m : Lower Unit} (has : S.HasSlots env.scope slots) (h : Steady S ctx pending env inner m) :
    LoopCode S ctx pending env slots outer inner (do
      pushIteration env.scope slots
      m
      popIteration env.scope slots) := by
  intro Γ ready inhabits _ known
  have runs := h _ (ready.iteration env.scope slots) inhabits known
  exact (spec_pushIteration has).follow fun _ => runs.follow fun _ => spec_popIteration

end LoopCode

theorem steady_loopBody (mem : next ∈ ls)
    (h : ∀ enclosing, Steady S (ctx.loop names) [] { env with enclosing } [] body) :
    Steady S ctx.switch [] env ls (loopBody names next body) := by
  intro Γ ready inhabits known
  have own := known next mem
  have runs := Steady.within h (.continuable next names) _ (ready.openContinue own names)
    (inhabits.push rfl) nofun
  exact (spec_beginContinuable next names).before <| runs.follow fun _ =>
    spec_endContinuable.before <| spec_label own

theorem Steady.inIteration
    {m : Lower Unit} (h : ∀ enclosing, Steady S ctx pending { env with enclosing } ls m)
    (loop : ScopeId) (slots : Option (List String)) :
    Steady S ctx pending env ls (Lower.inIteration loop slots m) := by
  cases slots with
  | none => exact h env.enclosing
  | some _ => exact .within h _

theorem steady_enclosedBody (mem : next ∈ ls)
    (h : ∀ enclosing, Steady S (ctx.loop names) [] { env with enclosing } [] body)
    (enclosure : Enclosure) (loop : ScopeId) (slots : Option (List String)) :
    Steady S ctx.switch [] env ls
      (within enclosure (inIteration loop slots (loopBody names next body))) := by
  refine .within (fun _ => ?_) enclosure
  refine .inIteration ?_ loop slots
  exact fun _ => steady_loopBody mem fun _ => h _

theorem steady_withLoopSlots (opens : S.surveyed → S.Opens node .loop env.scope loop)
    {f : Option (List String) → Lower Unit}
    (h : ∀ slots, S.HasSlots loop slots →
      LoopCode S ctx pending { env with scope := loop } slots [] [] (f slots)) :
    Steady S ctx pending env ls (Lower.withScope loop (loopSlots loop >>= f)) := by
  intro Γ ready inhabits _
  have anchors := inhabits.anchors.withScope opens nofun
  refine Spec.follow (m := loopSlots loop) (spec_loopSlots anchors loop) fun slots =>
    .given fun has => ?_
  exact h slots has Γ (ready.withScope loop) (inhabits.iteration opens has) nofun nofun

/-! ## Copies of an iteration's environment -/

theorem spec_slotTemps (slotNames : List String) :
    Spec S (Held S Γ n) (slotTemps slotNames) (fun temps a =>
      temps.length = slotNames.length ∧ Held S Γ n a) := by
  induction slotNames with
  | nil => exact .pure fun _ held => ⟨rfl, held⟩
  | cons slot rest ih =>
    refine (plain_getTemp.spec Γ n).bind fun temp => ih.bind fun temps => ?_
    exact .pure fun a held => ⟨congrArg (· + 1) held.1, held.2⟩

theorem addresses_own (known : S.surveyed) (lexical : S.tree.isLexical env.scope = true)
    (bound : slot < (S.tree.slotNames env.scope).length) :
    S.Addresses (env.site .iteration boundaries) 0 slot := by
  obtain ⟨v, data, found, captured, owner⟩ :=
    (S.wellFormed known).slot_filled env.scope slot bound
  have needed : S.tree.needsEnv env.scope = true :=
    ScopeTree.needsEnv_of_slot (S.wellFormed known) bound
  have first : (S.tree.environments env.scope)[0]? = some (S.tree.slotOwner v) := by
    rw [ScopeTree.environments, ScopeTree.ancestors, ScopeTree.ancestorsWithin_succ,
      List.filter_cons_of_pos (by simp [lexical, needed]), List.getElem?_cons_zero, Setting.tree,
      owner]
  exact ⟨v, data, .inr rfl, found, captured, owner.symm ▸ bound, first⟩

section Slots

variable (lexical : S.surveyed → S.tree.isLexical env.scope = true) {temps : List Register}
  (room : slot + temps.length ≤ (S.tree.slotNames env.scope).length)

include lexical room

theorem calm_saveSlots :
    Calm S env ls (saveSlots slot temps) := by
  induction temps generalizing slot with
  | nil => exact .pure ()
  | cons temp rest ih =>
    simp only [List.length_cons] at room
    have loads : Calm S env ls (emitAt .iteration (.ldLexVar 0 slot)) :=
      calm_slotAccess (.inl rfl) fun known _ => addresses_own known (lexical known) (by omega)
    exact loads.then <| (plain_sta temp).before <| ih (by omega)

theorem calm_restoreSlots :
    Calm S env ls (restoreSlots slot temps) := by
  induction temps generalizing slot with
  | nil => exact .pure ()
  | cons temp rest ih =>
    simp only [List.length_cons] at room
    have stores : Calm S env ls (emitAt .iteration (.stLexVar 0 slot)) :=
      calm_slotAccess (.inr rfl) fun known _ => addresses_own known (lexical known) (by omega)
    exact (plain_lda temp).before <| stores.then <| ih (by omega)

end Slots

theorem spec_renewIteration
    (lexical : S.surveyed → S.tree.isLexical env.scope = true)
    (has : S.HasSlots env.scope slots)
    (inhabits : S.Inhabits env (Γ.iteration env.scope slots).boundaries) :
    Spec S
      (Held S (Γ.iteration env.scope slots) (S.depth (Γ.iteration env.scope slots).boundaries))
      (renewIteration env.scope slots env)
      (fun _ => Held S (Γ.iteration env.scope slots)
        (S.depth (Γ.iteration env.scope slots).boundaries)) := by
  cases slots with
  | none => exact .pure fun _ held => held
  | some names =>
    refine (spec_slotTemps names).step fun temps => .given fun length => ?_
    have room : 0 + temps.length ≤ (S.tree.slotNames env.scope).length := by
      rw [has.1, length, Nat.zero_add]
    exact ((calm_saveSlots lexical room).inhabited inhabits).follow fun _ =>
      spec_popEnvironment.before <| (spec_enterEnvironment has.1).follow fun _ =>
      ((calm_restoreSlots lexical room).inhabited inhabits).follow fun _ =>
      (plain_freeTemps temps).spec _ _

/-! ## Loops on a condition -/

theorem spec_leaveIteration {f : Unit → Lower β} {post : β → Assembler → Prop}
    (next : Spec S (Held S (Γ.iteration loop slots) (S.depth Γ.boundaries)) (f () env) post) :
    Spec S (Held S (Γ.iteration loop slots) (S.depth (Γ.iteration loop slots).boundaries))
      ((if slots.isSome then liftM popEnvironment >>= f else f ()) env) post := by
  cases slots with
  | none => exact next
  | some _ => exact spec_popEnvironment.before next

section Conditions

variable {node : NodeId} {inOrder : ScopeId → Prop} {body : Lower Unit}
  (finds : S.Finds (S.Opens node .loop env.scope) inOrder)
  (bodies : ∀ loop, inOrder loop → ∀ enclosing,
    Steady S (ctx.loop names) [] { env with scope := loop, enclosing } [] body)

include finds bodies

theorem steady_whileLoop {test : Label → Lower Unit}
    (tests : ∀ loop, inOrder loop → ∀ l, Calm S { env with scope := loop } [l] (test l)) :
    Steady S ctx names env [] (whileLoop node names test body) := by
  refine (yields_scopeOf finds.1).steady fun loop opened => ?_
  have ok := finds.2 loop opened.2
  refine steady_withLoopSlots opened.2 fun slots has => ?_
  refine .freshOuter fun start => .freshInner fun next => .freshInner fun exit =>
    .freshOuter fun done => ?_
  have code : LoopCode S ctx.switch [] { env with scope := loop } slots [done, start] [exit, next]
      (do
        label start
        pushIteration loop slots
        test exit
        within (.breakable done names true) (inIteration loop slots (loopBody names next body))
        if slots.isSome then popEnvironment
        branch start
        label exit
        popIteration loop slots) := by
    intro Γ ready inhabits known known'
    have inside := ready.iteration loop slots
    have starts : (Γ.iteration loop slots).depths.label start = some (S.depth Γ.boundaries) :=
      known start (by simp)
    have exits : (Γ.iteration loop slots).depths.label exit =
        some (S.depth (Γ.iteration loop slots).boundaries) := known' exit (by simp)
    exact (spec_label (known start (by simp))).before <| (spec_pushIteration has).follow fun _ =>
      ((tests loop ok exit) _ _ inhabits.aligned (by simpa using exits)).follow fun _ =>
      (steady_enclosedBody (by simp) (bodies loop ok) _ loop slots _ inside inhabits known').follow
      fun _ => spec_leaveIteration <|
      (spec_branch starts _).before <| (spec_label exits).before spec_popIteration
  cases slots <;> simpa [bind_assoc] using LoopCode.breakable names (.head _) code

theorem steady_doWhileLoop {test : Lower Unit}
    (tests : ∀ loop, inOrder loop → Calm S { env with scope := loop } [] test) :
    Steady S ctx names env [] (doWhileLoop node names body test) := by
  refine (yields_scopeOf finds.1).steady fun loop opened => ?_
  have ok := finds.2 loop opened.2
  refine steady_withLoopSlots opened.2 fun slots has => ?_
  refine .freshOuter fun start => .freshInner fun next => .freshOuter fun done => ?_
  have runs : Steady S ctx.switch [] { env with scope := loop } [next] (do
      within (.breakable done names true) (inIteration loop slots (loopBody names next body))
      test) :=
    (steady_enclosedBody (by simp) (bodies loop ok) _ loop slots).then <|
      .of_calm (tests loop ok).skip
  have code : LoopCode S ctx.switch [] { env with scope := loop } slots [done, start] [next] (do
      label start
      pushIteration loop slots
      within (.breakable done names true) (inIteration loop slots (loopBody names next body))
      test
      popIteration loop slots
      jumpIfTrue start) := by
    refine .step (plain_label (by simp)) fun _ => ?_
    simpa only [bind_assoc] using (LoopCode.iteration has runs).then <|
      .of_plain (plain_jumpIfTrue (by simp))
  simpa only [bind_assoc] using LoopCode.breakable names (.head _) code

theorem steady_forLoop {init update : Lower Unit} {test : Label → Lower Unit}
    (inits : ∀ loop, inOrder loop → Calm S { env with scope := loop } [] init)
    (tests : ∀ loop, inOrder loop → ∀ l, Calm S { env with scope := loop } [l] (test l))
    (updates : ∀ loop, inOrder loop → Calm S { env with scope := loop } [] update) :
    Steady S ctx names env [] (forLoop node names init test update body) := by
  refine (yields_scopeOf finds.1).steady fun loop opened => ?_
  have ok := finds.2 loop opened.2
  refine steady_withLoopSlots opened.2 fun slots has => ?_
  refine .freshInner fun start => .freshInner fun next => .freshInner fun exit =>
    .freshOuter fun done => ?_
  have code : LoopCode S ctx.switch [] { env with scope := loop } slots [done] [exit, next, start]
      (do
        pushIteration loop slots
        init
        label start
        test exit
        within (.breakable done names true) (inIteration loop slots (loopBody names next body))
        renewIteration loop slots
        update
        branch start
        label exit
        popIteration loop slots) := by
    intro Γ ready inhabits _ known
    have inside := ready.iteration loop slots
    have lexical : S.surveyed → S.tree.isLexical loop = true := fun known =>
      (opened.2 known).kindIs _
    have starts : (Γ.iteration loop slots).depths.label start =
        some (S.depth (Γ.iteration loop slots).boundaries) := known start (by simp)
    have exits : (Γ.iteration loop slots).depths.label exit =
        some (S.depth (Γ.iteration loop slots).boundaries) := known exit (by simp)
    exact (spec_pushIteration has).follow fun _ =>
      ((inits loop ok).inhabited inhabits).follow fun _ => (spec_label starts).before <|
      ((tests loop ok exit) _ _ inhabits.aligned (by simpa using exits)).follow fun _ =>
      (steady_enclosedBody (by simp) (bodies loop ok) _ loop slots _ inside inhabits known).follow
      fun _ => (spec_renewIteration lexical has inhabits).follow fun _ =>
      ((updates loop ok).inhabited inhabits).follow fun _ =>
      (spec_branch starts _).before <| (spec_label exits).before spec_popIteration
  simpa only [bind_assoc] using LoopCode.breakable names (.head _) code

end Conditions

/-! ## Loops over a collection -/

theorem LoopCode.within {m : Lower α}
    (h : ∀ enclosing, LoopCode S ctx pending { env with enclosing } slots outer inner m)
    (enclosure : Enclosure) :
    LoopCode S ctx pending env slots outer inner (Lower.within enclosure m) :=
  fun Γ ready inhabits known known' =>
    h _ Γ (ready.within _) (inhabits.within _) known known'

theorem LoopCode.iterate
    (has : S.HasSlots env.scope slots) (mem : next ∈ inner) {bind body : Lower Unit}
    (binds : Calm S env [] bind)
    (h : ∀ enclosing, Steady S (ctx.loop names) [] { env with enclosing } [] body) :
    LoopCode S ctx.switch [] env slots outer inner
      (Lower.iterate env.scope slots names next bind body) := by
  have inside : Steady S ctx.switch [] env inner (do
      bind
      inIteration env.scope slots (loopBody names next body)) :=
    (binds.mono (List.nil_subset inner)).steady fun _ =>
      .inIteration (fun _ => steady_loopBody mem fun _ => h _) env.scope slots
  simpa only [Lower.iterate, bind_assoc] using LoopCode.iteration has inside

theorem steady_collectionLoop {inOrder : ScopeId → Prop}
    (finds : S.Finds (S.Opens node .loop env.scope) inOrder) {source : Lower Unit}
    (sources : Calm S env [] source) {run : ScopeId → Lower Unit}
    (h : ∀ loop, inOrder loop → (S.surveyed → S.Opens node .loop env.scope loop) →
      Steady S ctx names env [] (Lower.withScope loop (run loop))) :
    Steady S ctx names env [] (collectionLoop node source run) :=
  (yields_scopeOf finds.1).steady fun loop opened =>
    sources.steady fun _ => h loop (finds.2 loop opened.2) opened.2

variable {bind : Register → Lower Unit}

theorem steady_forInLoop (opens : S.surveyed → S.Opens node .loop env.scope loop)
    (binds : ∀ enclosing r,
      Calm S { env with scope := loop, enclosing } [] (bind r))
    (bodies : ∀ enclosing,
      Steady S (ctx.loop names) [] { env with scope := loop, enclosing } [] body) :
    Steady S ctx names env [] (Lower.withScope loop (forInLoop loop names bind body)) := by
  refine steady_withLoopSlots opens fun slots has => ?_
  refine .freshOuter fun start => .freshInner fun next => .freshOuter fun done => ?_
  refine .step plain_getTemp fun iterator => .step plain_getTemp fun key => ?_
  refine .step (plain_emit rfl) fun _ => .step (plain_sta iterator) fun _ => ?_
  have iterates : ∀ enclosing, LoopCode S ctx.switch [] { env with scope := loop, enclosing } slots
      [done, start] [next] (iterate loop slots names next (bind key) body) :=
    fun enclosing => .iterate has (by simp) (binds enclosing key)
      fun _ => bodies _
  have code : LoopCode S ctx.switch [] { env with scope := loop } slots [done, start] [next] (do
      label start
      emit (.getNextPropName iterator)
      sta key
      constant .undefined
      binary .strictEq key
      emit (.jnez done)
      within (.breakable done names true) (iterate loop slots names next (bind key) body)
      branch start) :=
    .step (plain_label (by simp)) fun _ => .step (plain_emit rfl) fun _ =>
      .step (plain_sta key) fun _ => .step (plain_constant _) fun _ =>
      .step (plain_binary _ key) fun _ => .step (plain_jnez (by simp)) fun _ =>
      LoopCode.bind (.within (fun _ => iterates _) _) fun _ => .of_plain (plain_branch (by simp))
  have whole := (LoopCode.breakable names (.head _) code).then <|
    .of_plain (plain_freeTemps [iterator, key])
  simpa only [bind_assoc] using whole

theorem spec_protectedIteration
    {onThrow start : Label} (iterator : Register) {iteration : Lower Unit}
    (handles : Γ.depths.label onThrow = some n) (starts : Γ.depths.label start = some n)
    (h : ∀ i, Γ.depths.region i = none → ∀ code,
      (∀ Δ n, Spec S (Held S Δ n) code (fun _ => Held S Δ n)) →
      Spec S (Held S (Γ.openRegion i n) n) (withFinalizer i (.closing iterator) code iteration env)
        (fun _ => Held S (Γ.openRegion i n) n)) :
    Spec S (Held S Γ n) (protectedIteration onThrow start iterator iteration env)
      (fun _ => Held S Γ n) := by
  have closing : ∀ region isInlined Δ n, Spec S (Held S Δ n)
      (copyOf region (.closing iterator) isInlined (emit (.closeIterator iterator)) env)
      (fun _ => Held S Δ n) :=
    fun region isInlined Δ n => .get fun a held => Spec.weaken
      (((plain_emit rfl).spec Δ n).then <| (plain_noteCopy region _ _ a.code.size).spec Δ n)
      (fun b same => same ▸ held) fun _ _ h => h
  exact (spec_beginTry handles).step fun region => .given fun new => .close <|
    Spec.follow (h region new _ (closing region true)) fun _ =>
    (spec_endTry new).before <| (spec_branch starts _).before <|
    (spec_label handles).before <| spec_rethrowAfter (closing region false Γ n)

theorem steady_forOfLoop (opens : S.surveyed → S.Opens node .loop env.scope loop)
    (binds : ∀ finalizers enclosing r,
      Calm S { env with scope := loop, finalizers, enclosing } [] (bind r))
    (bodies : ∀ finalizers enclosing,
      Steady S (ctx.loop names) [] { env with scope := loop, finalizers, enclosing } [] body) :
    Steady S ctx names env [] (Lower.withScope loop (forOfLoop loop names bind body)) := by
  refine steady_withLoopSlots opens fun slots has => ?_
  refine .freshOuter fun start => .freshInner fun continuation => .freshOuter fun onThrow =>
    .freshOuter fun done => ?_
  refine .step plain_getTemp fun iterator => .step plain_getTemp fun next =>
    .step plain_getTemp fun result => .step plain_getTemp fun value =>
    .step (plain_startIteration iterator next) fun _ => ?_
  have code : LoopCode S ctx.switch [] { env with scope := loop } slots [done, onThrow, start]
      [continuation] (do
        let boundary := Boundary.finalizer (← read).finalizers.length
        startBoundary boundary
        label start
        callNext iterator next result
        jumpIfTrue done
        loadProperty result (.name "value")
        sta value
        within (.breakable done names true) (protectedIteration onThrow start iterator
          (iterate loop slots names continuation (bind value) body))
        endBoundary boundary) := by
    refine .read fun Γ ready inhabits known known' => ?_
    let Δ : Frame := Γ.push (.finalizer env.finalizers.length)
    have iterates : ∀ finalizers enclosing,
        LoopCode S ctx.switch [] { env with scope := loop, finalizers, enclosing }
          slots [] [continuation] (iterate loop slots names continuation (bind value) body) :=
      fun _ _ => .iterate has (.head _) (binds _ _ value) fun _ => bodies _ _
    have handles : Δ.depths.label onThrow = some (S.depth Γ.boundaries) := known onThrow (by simp)
    have starts : Δ.depths.label start = some (S.depth Γ.boundaries) := known start (by simp)
    have leaves : Plain S [done, onThrow, start] (jumpIfTrue done) := plain_jumpIfTrue (by simp)
    refine (spec_startBoundary _).before <| (spec_label starts).before <|
      ((plain_callNext iterator next result).spec Δ _).before <| (leaves Δ _ known).before <|
      ((plain_loadProperty result _).spec Δ _).before <| ((plain_sta value).spec Δ _).before <|
      Spec.follow (m := within _ _)
        (spec_protectedIteration iterator handles starts fun i new code runs => ?_) fun _ =>
      spec_endBoundary _
    have closes : Closes S Γ Γ.boundaries code := fun Δ _ _ _ _ => runs Δ _
    let enclosing :=
      .guarded i (.closing iterator) loop :: .breakable done names true :: env.enclosing
    have under := (ready.pushFinalizer closes).within enclosing
    have around : S.Inhabits
        { env with scope := loop, finalizers := env.finalizers ++ [code], enclosing }
        (iterationBoundaries loop slots (.finalizer env.finalizers.length :: Γ.boundaries)) :=
      ⟨{ inhabits.anchors with }, inhabits.outside, (inhabits.around rfl).opened⟩
    refine iterates _ _ _ (under.openRegion new) (around.around rfl) nofun
      fun l mem => ?_
    exact (known' l mem).trans
      (congrArg some ((depth_around loop _ rfl).trans (depth_around loop _ rfl)).symm)
  have whole := (LoopCode.breakable names (.head _) code).then <|
    .of_plain (plain_freeTemps [iterator, next, result, value])
  simpa only [bind_assoc] using whole

end AccScript
