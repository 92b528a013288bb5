import AccScript.Proofs.Assembly.Boundary
import AccScript.Proofs.Assembly.Expression

/-!
# Jumps out of statements

A jump unwinds boundaries.  On its way it runs the finalizers of the environment, each at the stage
of the statement that it finalizes: `Serves` says that they give back what they take there.
`Suits` adds what a statement needs of its stage, and the main result is that a `break` or
`continue` lands where the source sends it.
-/

namespace AccScript

open Asm Lower

variable {G : Guard} {σ : Stage} {opened : List Nat} {a : Assembler} {env : Env} {watched : Prop}
  {left rest : List Boundary} {name : Option String} {r : Register} {b : Assembler}
  {finalizers : List Code}

/-! ## Stages of statements -/

/-- All jump targets have a label that can be jumped to. -/
def Stage.KnowsTargets (σ : Stage) : Prop :=
  ∀ target ∈ σ.breakables ++ σ.continuables, σ.Knows target.label

/-- The finalizer of each boundary can be run as soon as the boundary has been left. -/
def Serves (watched : Prop) (finalizers : List Code) (σ : Stage) : Prop :=
  ∀ i rest, .finalizer i :: rest <:+ σ.boundaries → ∃ code, finalizers[i]? = some code ∧
    ∀ (G : Guard) (σ' : Stage), (G.watched → watched) → σ'.boundaries = rest →
      σ.temps ⊆ σ'.temps → σ.made ⊆ σ'.made → (G.watched → σ'.KnowsTargets) →
      Flows G σ' code fun _ => σ'

/-- What the code of a statement needs. -/
structure Suits (watched : Prop) (env : Env) (σ : Stage) : Prop where
  fields : Neutral env.fieldInit
  serves : Serves watched env.finalizers σ
  known : watched → σ.KnowsTargets
  mirrors : watched →
    Mirrors env.finalizers env.enclosing σ.boundaries σ.breakables σ.continuables
  crosses : watched → Crosses env.finalizers env.enclosing σ.boundaries

/-- The code of a statement gives back all it takes. -/
def Settles (code : Lower Unit) : Prop :=
  ∀ env G σ, Suits G.watched env σ → Flows G σ (code env) fun _ => σ

theorem Tame.settles {code : Lower Unit} (h : Tame code) : Settles code :=
  fun env G σ suits => h env suits.fields G σ

theorem Serves.mono {watched' : Prop} {σ' : Stage} (h : Serves watched finalizers σ)
    (watches : watched' → watched) (boundaries : σ'.boundaries = σ.boundaries)
    (temps : σ.temps ⊆ σ'.temps) (made : σ.made ⊆ σ'.made) : Serves watched' finalizers σ' := by
  intro i rest suffix
  obtain ⟨code, found, run⟩ := h i rest (boundaries ▸ suffix)
  refine ⟨code, found, fun G τ watches' around temps' made' known => ?_⟩
  exact run G τ (fun w => watches (watches' w)) around (List.Subset.trans temps temps')
    (List.Subset.trans made made') known

namespace Suits

theorem mono {σ' : Stage} (h : Suits watched env σ) (boundaries : σ'.boundaries = σ.boundaries)
    (breakables : σ'.breakables = σ.breakables) (continuables : σ'.continuables = σ.continuables)
    (temps : σ.temps ⊆ σ'.temps) (made : σ.made ⊆ σ'.made)
    (knows : ∀ l, σ.Knows l → σ'.Knows l) : Suits watched env σ' where
  fields := h.fields
  serves := h.serves.mono id boundaries temps made
  known w target mem := knows _ (h.known w target (by rwa [breakables, continuables] at mem))
  mirrors w := by
    rw [boundaries, breakables, continuables]
    exact h.mirrors w
  crosses w := by
    rw [boundaries]
    exact h.crosses w

theorem hold (h : Suits watched env σ) (temps : List Register) : Suits watched env (σ.hold temps) :=
  h.mono rfl rfl rfl (List.subset_append_right _ _) (List.Subset.refl _) fun _ => id

theorem expect (h : Suits watched env σ) (l : Label) : Suits watched env (σ.expect l) :=
  h.mono rfl rfl rfl (List.Subset.refl _) (List.Subset.refl _)
    fun _ known => known.imp (List.mem_cons_of_mem _) id

end Suits

/-! ## Interrupted ranges -/

theorem ends_closeAll (h : SoundAt G σ opened a) (regions : List Nat) :
    Ends (regions.forM closeTry) a fun _ b => SoundAt G σ (opened.filter (· ∉ regions)) b ∧
      Grows G a b ∧ OnlyLabels b.code a.code.size b.code.size := by
  induction regions generalizing opened a with
  | nil => exact .pure ⟨h.reopen (by simp), .refl a, .refl _ _⟩
  | cons i rest ih =>
    refine (ends_closeTry h i).bind fun _ b post => (ih post.1).imp fun _ c _ rest' => ⟨?_, ?_, ?_⟩
    · refine rest'.1.reopen fun _ j => ?_
      simp [and_comm]
    · exact post.2.1.trans rest'.2.1
    · exact (post.2.2.mono (keepsInstructions rest'.2.1.keeps)).trans rest'.2.2

theorem ends_resumeAll (h : SoundAt G σ opened a) (regions : List Nat) :
    Ends (regions.forM resumeTry) a fun _ b => SoundAt G σ (regions ++ opened) b ∧ Grows G a b ∧
      OnlyLabels b.code a.code.size b.code.size := by
  induction regions generalizing opened a with
  | nil => exact .pure ⟨h, .refl a, .refl _ _⟩
  | cons i rest ih =>
    refine (ends_resumeTry h i).bind fun _ b post => (ih post.1).imp fun _ c _ rest' => ⟨?_, ?_, ?_⟩
    · refine rest'.1.reopen fun _ j => ?_
      simp only [List.cons_append, List.mem_cons, List.mem_append]
      exact or_left_comm
    · exact post.2.1.trans rest'.2.1
    · exact (post.2.2.mono (keepsInstructions rest'.2.1.keeps)).trans rest'.2.2

theorem Nests.not_mem_right {regions : Array TryRegion} (h : Nests regions (left ++ rest))
    {i : Nat} (mem : .region i ∈ left) : .region i ∉ rest := by
  obtain ⟨between, suffix⟩ := mem_region_iff.mp mem
  have around : .region i :: (between ++ rest) <:+ left ++ rest := by
    rw [← List.cons_append]
    exact List.suffix_append_self_iff.mpr suffix
  exact fun inside => h.not_mem_around around (List.mem_append_right _ inside)

theorem ends_outside (sound : Sound G σ a) (split : σ.boundaries = left ++ rest) {code : Code}
    (h : Flows G { σ with boundaries := rest } code fun _ => { σ with boundaries := rest }) :
    Ends (outside left rest code) a fun _ b => Sound G σ b ∧ Grows G a b ∧
      ∃ before after, code.run before = .ok ((), after) ∧ Grows G after b ∧
        OnlyLabels b.code a.code.size before.code.size ∧
        OnlyLabels b.code after.code.size b.code.size := by
  have start : Ends (modify fun a => { a with boundaries := rest } : Code) a fun _ b =>
      SoundAt G { σ with boundaries := rest } (σ.boundaries.filterMap Boundary.region?) b ∧
        Grows G a b ∧ b.code = a.code :=
    .of_run rfl ⟨sound.leave left split, .of_same rfl, rfl⟩
  refine start.bind fun _ a₀ left_ => (ends_closeAll left_.1 _).bind fun _ before closed => ?_
  have isolated : Sound G { σ with boundaries := rest } before := by
    refine closed.1.reopen fun watched i => ?_
    have nests := (sound.watches watched).regions.current
    rw [split] at nests
    rw [List.mem_filter, decide_eq_true_eq, List.mem_reverse, mem_filterMap_region?,
      mem_filterMap_region?, mem_filterMap_region?, split, List.mem_append]
    constructor
    · exact fun inside => ⟨.inr inside, fun mem => nests.not_mem_right mem inside⟩
    · exact fun either => either.1.resolve_left either.2
  cases run : code.run before with
  | error failure =>
    refine .of_error ?_ ((h.ends before isolated).not_blames run)
    rw [StateT.run_bind, run]
    rfl
  | ok result =>
    obtain ⟨⟨⟩, after⟩ := result
    have ran := (h.ends before isolated).post run
    have step : Ends code before fun _ b => b = after := .of_run run rfl
    refine step.bind fun _ b same => ?_
    subst same
    refine (ends_resumeAll ran.1 _).bind fun _ c resumed => .of_run rfl ?_
    have grows : Grows G a c := left_.2.1.trans (closed.2.1.trans (ran.2.trans resumed.2.1))
    refine ⟨?_, grows.trans (.of_same rfl), before, b, run, ?_, ?_, ?_⟩
    · have around : left ++ c.boundaries = σ.boundaries := by rw [resumed.1.boundaries, split]
      have nests : G.watched → Nests c.regions σ.boundaries := fun watched =>
        (sound.watches watched).regions.current.mono grows.around
      show Sound G σ { c with boundaries := left ++ c.boundaries }
      rw [around]
      refine SoundAt.reopen (resumed.1.rebound nests fun watched i mem =>
        ((sound.watches watched).shut i mem).2) fun _ i => ?_
      rw [List.mem_append, List.mem_reverse, mem_filterMap_region?, mem_filterMap_region?,
        mem_filterMap_region?, split, List.mem_append]
    · exact resumed.2.1.trans (.of_same rfl)
    · rw [← left_.2.2]
      exact closed.2.2.mono (keepsInstructions (ran.2.trans resumed.2.1).keeps)
    · exact resumed.2.2

/-! ## Unwinding -/

/-- What leaving a boundary takes. -/
def Passed (finalizers : List Code) (code : Array Emitted) (copies : Array FinalizerCopy)
    (k : Nat) (k' : Nat) : Boundary → Prop
  | .environment _ => k' = k + 1 ∧ ∃ e, code[k]? = some e ∧ e.instruction = .popLexEnv
  | .finalizer i => ∀ region kind finalizer env,
      finalizers[i]? = some (copyOf region kind true finalizer env) →
      ∃ start finish, OnlyLabels code k start ∧
        ⟨region, kind, env.scope, start, finish⟩ ∈ copies ∧ OnlyLabels code finish k'
  | _ => k' = k

theorem Passed.mono {code code' : Array Emitted} {copies copies' : Array FinalizerCopy}
    {k k' : Nat} {b : Boundary} (h : Passed finalizers code copies k k' b)
    (keeps : ∀ (k : Nat) (e : Emitted), code[k]? = some e → code'[k]? = some e)
    (more : ∀ c ∈ copies, c ∈ copies') : Passed finalizers code' copies' k k' b := by
  cases b with
  | environment loop =>
    obtain ⟨next, e, found, pops⟩ := h
    exact ⟨next, e, keeps k e found, pops⟩
  | finalizer i =>
    intro region kind finalizer env same
    obtain ⟨start, finish, before, mem, after⟩ := h region kind finalizer env same
    have keeps := keepsInstructions keeps
    exact ⟨start, finish, before.mono keeps, more _ mem, after.mono keeps⟩
  | _ => exact h

section Crosses

variable {finalizers : List Code} {code : Array Emitted} {copies : Array FinalizerCopy}
  {es : List Enclosure} {k k' stop : Nat}

theorem Crosses.leaves_nil (h : Crosses finalizers es []) : Leaves code copies k es k := by
  generalize none : [] = bs at h
  induction h with
  | nil => exact .arrived k
  | copied region isInlined _ ih => exact .pass rfl (ih none)
  | _ => cases none

theorem Crosses.leaves_cons
    {b : Boundary} {bs : List Boundary} (h : Crosses finalizers es (b :: bs))
    (passed : Passed finalizers code copies k k' b)
    (rest : ∀ es, Crosses finalizers es bs → Leaves code copies k' es stop) :
    Leaves code copies k es stop := by
  generalize all : b :: bs = bs' at h
  induction h with
  | nil => cases all
  | copied region isInlined _ ih => exact .pass rfl (ih all)
  | region i inner _ =>
    cases all
    obtain rfl : k' = k := passed
    exact rest _ inner
  | breakable behind names acceptsUnlabelled inner _ =>
    cases all
    obtain rfl : k' = k := passed
    exact .pass rfl (rest _ inner)
  | continuable next names inner _ =>
    cases all
    obtain rfl : k' = k := passed
    exact .pass rfl (rest _ inner)
  | iteration loop inner _ =>
    cases all
    obtain ⟨rfl, e, found, pops⟩ := passed
    exact .pop loop found pops (rest _ inner)
  | guarded same inner _ =>
    cases all
    obtain ⟨start, finish, before, mem, after⟩ := passed _ _ _ _ same
    exact .copy before mem after (rest _ inner)

end Crosses

theorem ends_leave (serves : Serves G.watched finalizers σ)
    (known : G.watched → σ.KnowsTargets) {b : Boundary}
    (split : σ.boundaries = left ++ b :: rest) (sound : Sound G σ a) :
    Ends (match b with
      | .environment _ => popEnvironment
      | .finalizer index => do outside (left ++ [b]) rest (← orBroken finalizers[index]?)
      | _ => pure () : Code) a fun _ c => Sound G σ c ∧ Grows G a c ∧
        Passed finalizers c.code c.copies a.code.size c.code.size b := by
  cases b with
  | environment loop =>
    have grown := (neutral_popEnvironment G σ).ends a sound
    refine grown.imp fun _ c run post => ⟨post.1, post.2, ?_⟩
    cases run
    exact ⟨Array.size_push _, ⟨.popLexEnv, a.origin, a.placement none⟩, by simp, rfl⟩
  | finalizer i =>
    have suffix : .finalizer i :: rest <:+ σ.boundaries := split ▸ List.suffix_append left _
    obtain ⟨code, found, run⟩ := serves i rest suffix
    simp only [found]
    have split' : σ.boundaries = (left ++ [.finalizer i]) ++ rest := by simp [split]
    have flows := run G { σ with boundaries := rest } id rfl (List.Subset.refl _)
      (List.Subset.refl _) known
    refine (ends_outside sound split' flows).imp fun _ c _ post => ⟨post.1, post.2.1, ?_⟩
    obtain ⟨before, after, ran, grows, opens, closes⟩ := post.2.2
    intro region kind finalizer env same
    rw [found, Option.some.injEq] at same
    subst same
    exact ⟨_, _, opens, grows.copies _ (mem_copies_of_copyOf ran), closes⟩
  | _ => exact .pure ⟨sound, .refl a, rfl⟩

theorem ends_unwindFrom (serves : Serves G.watched finalizers σ)
    (known : G.watched → σ.KnowsTargets) (depth : Nat) {left bs : List Boundary}
    (split : σ.boundaries = left ++ bs) (sound : Sound G σ a) :
    Ends (unwindFrom finalizers depth left bs) a fun _ c => Sound G σ c ∧ Grows G a c ∧
      ∀ crossed outer, bs = crossed ++ outer → outer.length = depth →
        ∀ es, Crosses finalizers es crossed →
          Leaves c.code c.copies a.code.size es c.code.size := by
  induction bs generalizing left a with
  | nil =>
    refine .pure ⟨sound, .refl a, fun crossed outer all _ es crosses => ?_⟩
    rw [(List.nil_eq_append_iff.mp all).1] at crosses
    exact crosses.leaves_nil
  | cons b rest ih =>
    unfold unwindFrom
    split
    · rename_i short
      refine .pure ⟨sound, .refl a, fun crossed outer all length es crosses => ?_⟩
      have none : crossed = [] := by
        have lengths := congrArg List.length all
        simp only [List.length_cons, List.length_append] at lengths
        exact List.eq_nil_of_length_eq_zero (by omega)
      rw [none] at crosses
      exact crosses.leaves_nil
    · rename_i long
      have split' : σ.boundaries = (left ++ [b]) ++ rest := by simp [split]
      have step := (ends_leave serves known split sound).bind (R := fun _ c => Sound G σ c ∧
          Grows G a c ∧ ∀ crossed outer, b :: rest = crossed ++ outer → outer.length = depth →
            ∀ es, Crosses finalizers es crossed →
              Leaves c.code c.copies a.code.size es c.code.size) fun _ c post =>
        (ih split' post.1).imp fun _ d _ further => ⟨further.1, post.2.1.trans further.2.1, ?_⟩
      · cases b with
        | finalizer i => simpa only [bind_assoc] using step
        | _ => exact step
      · intro crossed outer all length es crosses
        cases crossed with
        | nil =>
          rw [List.nil_append] at all
          rw [← all, List.length_cons] at length
          omega
        | cons b' crossed =>
          obtain ⟨rfl, rfl⟩ := List.cons.inj all
          have passed := post.2.2.mono further.2.1.keeps further.2.1.copies
          exact crosses.leaves_cons passed (further.2.2 crossed outer rfl length)

theorem ends_unwind (suits : Suits G.watched env σ) (depth : Nat) (sound : Sound G σ a) :
    Ends (unwind depth env) a fun _ c => Sound G σ c ∧ Grows G a c ∧
      ∀ crossed outer, σ.boundaries = crossed ++ outer → outer.length = depth →
        ∀ es, Crosses env.finalizers es crossed →
          Leaves c.code c.copies a.code.size es c.code.size := by
  have whole := ends_unwindFrom suits.serves suits.known depth
    (List.nil_append σ.boundaries).symm sound
  show Ends (unwindFrom env.finalizers depth [] a.boundaries) a _
  rw [sound.boundaries]
  exact whole

/-! ## Break and continue -/

def Stage.search (σ : Stage) (word : JumpWord) (name : Option String) : Option JumpTarget :=
  (word.targets σ.breakables σ.continuables).find? fun target =>
    target.depth < σ.boundaries.length && target.accepts name

theorem Suits.knows_of_search (suits : Suits watched env σ) (w : watched) {word : JumpWord}
    {target : JumpTarget} (found : σ.search word name = some target) : σ.Knows target.label := by
  have mem := List.mem_of_find?_eq_some found
  cases word with
  | «break» => exact suits.known w target (List.mem_append_left _ mem)
  | «continue» => exact suits.known w target (List.mem_append_right _ mem)

theorem flows_jumpTo (suits : Suits G.watched env σ) {word : JumpWord} {target : JumpTarget}
    (found : σ.search word name = some target) :
    Flows G σ (jumpTo word name target env) fun _ => σ := by
  refine ⟨fun a sound => ?_⟩
  show Ends (unwind (target.depth + 1) env >>= fun _ =>
    emitAt (.jump word name a.code.size) (.jmp target.label) env) a _
  refine (ends_unwind suits _ sound).bind fun _ c post => .of_run rfl ⟨?_, post.2.1.trans ?_⟩
  · refine post.1.push rfl post.1.boundaries (by simp [Instruction.registers, Instruction.operands,
      Operand.register?]) (fun w l same => ?_) fun w => ?_
    · cases same
      exact suits.knows_of_search w found
    · refine ⟨?_, by rintro site start ⟨⟩ ⟨⟩⟩
      rintro site word' name' start ⟨⟩ ⟨⟩
      have mirrors := suits.mirrors w
      dsimp only [Env.site]
      cases way : Enclosure.route? word name env.enclosing with
      | none =>
        by_contra direct
        have nothing := mirrors.find?_eq_none way (fun r mem => direct ⟨r, mem⟩) σ.boundaries.length
        rw [Stage.search] at found
        rw [nothing] at found
        cases found
      | some route =>
        obtain ⟨between, l⟩ := route
        intro direct
        obtain ⟨left, b, outer, target', split, crosses, rfl, depth, search⟩ :=
          mirrors.seeks way direct
        have same := search σ.boundaries.length (Nat.le_refl _)
        rw [Stage.search] at found
        rw [found, Option.some.injEq] at same
        subst same
        refine ⟨rfl, ?_⟩
        have leaves := post.2.2 left (b :: outer) split (by rw [depth, List.length_cons]) between
          crosses
        exact leaves.mono (keepsInstructions fun _ _ found => getElem?_push_of_some found _)
          fun _ mem => mem
  · refine .push (by simp [Instruction.written]) (fun w i shut mem => ?_) rfl rfl
    have around : c.boundaries = σ.boundaries := post.1.boundaries
    exact ((post.1.watches w).shut i shut).2 (around ▸ mem)

theorem noTarget_not_blames (word : String) (position : Position) :
    ¬(noTarget word position).Blames :=
  Failure.not_blames_internal (c := 'n') (by simp) rfl

theorem flows_jumpOr (suits : Suits G.watched env σ) (sound : Sound G σ a) (word : JumpWord)
    (text : String) (position : Position) :
    Flows G σ ((match a.findTarget? (word.targets a.breakables a.continuables) name with
      | some target => jumpTo word name target
      | none => throw (noTarget text position) : Lower Unit) env) fun _ => σ := by
  have same : a.findTarget? (word.targets a.breakables a.continuables) name = σ.search word name := by
    unfold Assembler.findTarget? Stage.search
    rw [sound.boundaries, sound.breakables, sound.continuables]
    rfl
  rw [same]
  cases found : σ.search word name with
  | some target => exact flows_jumpTo suits found
  | none => exact .throw (noTarget_not_blames _ position)

theorem settles_breakStatement (name : Option String) (position : Position) :
    Settles (breakStatement name position) :=
  fun _ _ _ suits => .inspect fun _ sound => flows_jumpOr suits sound .break _ position

theorem settles_continueStatement (name : Option String) (position : Position) :
    Settles (continueStatement name position) :=
  fun _ _ _ suits => .inspect fun _ sound => flows_jumpOr suits sound .continue _ position

/-! ## Return -/

theorem ends_unwindAll (suits : Suits G.watched env σ) (sound : Sound G σ a) :
    Ends (unwind 0 env) a fun _ c => Sound G σ c ∧ Grows G a c ∧
      (G.watched → Leaves c.code c.copies a.code.size env.enclosing c.code.size) :=
  (ends_unwind suits 0 sound).imp fun _ _ _ post => ⟨post.1, post.2.1, fun w =>
    post.2.2 _ [] (List.append_nil _).symm rfl _ (suits.crosses w)⟩

theorem ends_emitReturn
    {c : Assembler} (sound : Sound G σ c) {i : Instruction} (inert : i.isInert = true) {start : Nat}
    (returns : G.watched →
      (i = .return ∧ HandsOn c.code c.copies start env.enclosing c.code.size) ∨
        (i = .returnUndefined ∧ Leaves c.code c.copies start env.enclosing c.code.size)) :
    Ends (emitAt (.result start) i env) c fun _ d => Sound G σ d ∧ Grows G c d := by
  have usable : i.Usable σ := i.usable_of_isInert inert
  have keeps : ∀ e : Emitted, ∀ (k : Nat) (e' : Emitted), c.code[k]? = some e' →
      ∃ e'' : Emitted, (c.code.push e)[k]? = some e'' ∧ e''.instruction = e'.instruction :=
    fun e => keepsInstructions fun _ _ found => getElem?_push_of_some found e
  refine .of_run rfl ⟨sound.push usable.plain sound.boundaries (fun _ r mem => ?_) (fun _ => usable.target)
    fun w => ⟨by rintro site word name start' ⟨⟩ ⟨⟩, ?_⟩,
    .push (fun r mem => ?_) (fun w j shut mem => ?_) rfl rfl⟩
  · exact sound.allocates.lt_next (List.mem_append_left _ (usable.registers r mem))
  · rintro site start' ⟨⟩ ⟨⟩
    refine (returns w).imp ?_ ?_
    · exact fun back => ⟨back.1, back.2.mono (keeps _) fun _ mem => mem⟩
    · exact fun back => ⟨back.1, back.2.mono (keeps _) fun _ mem => mem⟩
  · exact sound.not_kept (usable.registers r (i.written_subset mem))
  · have around : c.boundaries = σ.boundaries := sound.boundaries
    exact ((sound.watches w).shut j shut).2 (around ▸ mem)

namespace Guard

/-- A guard for code that must not write one more register. -/
def keeping (G : Guard) (r : Register) : Guard :=
  { G with kept := r :: G.kept }

end Guard

/-- A temporary is put out of reach. -/
theorem SoundAt.keep (h : SoundAt G (σ.hold [r]) opened a) : SoundAt (G.keeping r) σ opened a where
  boundaries := h.boundaries
  breakables := h.breakables
  continuables := h.continuables
  allocates := h.allocates.perm List.perm_middle.symm
  watches w := { h.watches w with }

/-- A temporary is in reach again. -/
theorem SoundAt.unkeep (h : SoundAt (G.keeping r) σ opened a) :
    SoundAt G (σ.hold [r]) opened a where
  boundaries := h.boundaries
  breakables := h.breakables
  continuables := h.continuables
  allocates := h.allocates.perm List.perm_middle
  watches w := { h.watches w with }

theorem Grows.unkeep (h : Grows (G.keeping r) a b) : Grows G a b :=
  { h with writes := fun k e new found r' mem kept =>
      h.writes k e new found r' mem (.tail _ kept) }

theorem Crosses.unguarded {es : List Enclosure} {bs : List Boundary}
    (h : Crosses finalizers es bs) (none : bs.any Boundary.isFinalizer = false) :
    ∀ region kind scope, .guarded region kind scope ∉ es := by
  intro region kind scope mem
  induction h with
  | nil => cases mem
  | guarded => simp [Boundary.isFinalizer] at none
  | region i _ ih => exact ih (by simpa [Boundary.isFinalizer] using none) mem
  | copied _ _ _ ih => exact ih none (by simpa using mem)
  | breakable | continuable | iteration =>
    rename_i ih
    exact ih (by simpa [Boundary.isFinalizer] using none) (by simpa using mem)

theorem code_getTemp (run : getTemp.run a = .ok (r, b)) : b.code = a.code := by
  rw [getTemp, StateT.run_bind] at run
  cases free : a.freeTemps with
  | nil =>
    rw [run_unusedRegister_nil free] at run
    cases run
    rfl
  | cons r rest =>
    rw [run_unusedRegister_cons free] at run
    cases run
    rfl

theorem code_freeTemps {given : List Register} (run : (freeTemps given).run a = .ok ((), b)) :
    b.code = a.code ∧ b.copies = a.copies := by
  rw [freeTemps, StateT.run_bind, StateT.run_get, pure_bind] at run
  split at run
  · cases run
  · cases run
    exact ⟨rfl, rfl⟩

theorem ends_storeTemp (sound : Sound G σ a) :
    Ends storeTemp a fun r b => Sound G (σ.hold [r]) b ∧ Grows G a b ∧
      ∃ e : Emitted, b.code = a.code.push e ∧ e.instruction = .sta r := by
  have taken := (flows_getTemp.ends a sound).imp
    (Q := fun r b => (Sound G (σ.hold [r]) b ∧ Grows G a b) ∧ b.code = a.code)
    fun _ _ run post => ⟨post, code_getTemp run⟩
  refine taken.bind fun r b ⟨post, code⟩ => ?_
  have stored := (flows_sta (G := G) (σ := σ.hold [r]) (r := r) (by simp)).ends b post.1
  refine Ends.bind (stored.imp (Q := fun _ c => (Sound G (σ.hold [r]) c ∧ Grows G b c) ∧
    (sta r).run b = .ok ((), c)) fun _ _ run after => ⟨after, run⟩) fun _ c ⟨after, run⟩ => ?_
  cases run
  exact .pure ⟨after.1, post.2.trans after.2, _, congrArg (Array.push · _) code, rfl⟩

/-- The value waits in a register while finalizers run. -/
theorem ends_unwindSaving (suits : Suits G.watched env σ) (sound : Sound G σ a) : Ends ((do
      let value ← storeTemp
      unwind 0
      lda value
      freeTemps [value] : Lower Unit) env) a fun _ c => Sound G σ c ∧ Grows G a c ∧
        (G.watched → HandsOn c.code c.copies a.code.size env.enclosing c.code.size) := by
  show Ends (storeTemp >>= fun r => unwind 0 env >>= fun _ => lda r >>= fun _ => freeTemps [r]) a _
  refine (ends_storeTemp sound).bind fun r b ⟨held, grown, e, code, saves⟩ => ?_
  -- What is unwound must not write the register, so it is out of reach meanwhile.
  refine (ends_unwindAll (G := G.keeping r) suits held.keep).bind fun _ c ⟨kept, grown', leaves⟩ => ?_
  have loaded := (flows_lda (G := G) (σ := σ.hold [r]) (r := r) (by simp)).ends c kept.unkeep
  refine Ends.bind (loaded.imp (Q := fun _ d => (Sound G (σ.hold [r]) d ∧ Grows G c d) ∧
    (lda r).run c = .ok ((), d)) fun _ _ run after => ⟨after, run⟩) fun _ d ⟨after, run⟩ => ?_
  have frees : Flows G (σ.hold [r]) (freeTemps [r]) fun _ => σ := flows_freeTemps 1 (.refl _)
  have freed := frees.ends d after.1
  refine freed.imp fun _ f freeing post => ⟨post.1, ?_, fun w => ?_⟩
  · exact grown.trans (grown'.unkeep.trans (after.2.trans post.2))
  · obtain ⟨sameCode, sameCopies⟩ := code_freeTemps freeing
    cases run
    have start : b.code.size = a.code.size + 1 := by rw [code, Array.size_push]
    have keeps := fun (k : Nat) (e' : Emitted) (found : c.code[k]? = some e') =>
      getElem?_push_of_some found ⟨.lda r, c.origin, c.placement none⟩
    have spares : Spares (c.code.push ⟨.lda r, c.origin, c.placement none⟩) r a.code.size
        c.code.size := by
      refine ⟨⟨e, keeps _ e (grown'.keeps _ e ?_), saves⟩, fun k e' later earlier found => ?_,
        _, Array.getElem?_push_size, rfl⟩
      · rw [code, Array.getElem?_push_size]
      · rcases getElem?_push_cases found with old | ⟨rfl, -⟩
        · exact fun mem => grown'.writes k e' (by omega) old r mem (.head _)
        · omega
    rw [sameCode, sameCopies, Array.size_push]
    refine .saved spares ?_
    rw [← start]
    exact (leaves w).mono (keepsInstructions keeps) fun _ mem => mem

theorem ends_unwindWithValue (suits : Suits G.watched env σ) (sound : Sound G σ a) :
    Ends (unwindWithValue env) a fun _ c => Sound G σ c ∧ Grows G a c ∧
      (G.watched → HandsOn c.code c.copies a.code.size env.enclosing c.code.size) := by
  show Ends ((if a.boundaries.any Boundary.isFinalizer then _ else _ : Lower Unit) env) a _
  split
  · exact ends_unwindSaving suits sound
  · rename_i none
    refine (ends_unwindAll suits sound).imp fun _ c _ post => ⟨post.1, post.2.1, fun w => ?_⟩
    refine .direct ((suits.crosses w).unguarded ?_) (post.2.2 w)
    rw [← sound.boundaries]
    exact Bool.eq_false_iff.mpr none

theorem settles_returnAccumulator : Settles returnAccumulator := by
  intro env G σ suits
  refine ⟨fun a sound => ?_⟩
  show Ends (unwindWithValue env >>= fun _ => emitAt (.result a.code.size) .return env) a _
  refine (ends_unwindWithValue suits sound).bind fun _ c post => ?_
  refine (ends_emitReturn post.1 rfl fun w => .inl ⟨rfl, post.2.2 w⟩).imp fun _ d _ emitted => ?_
  exact ⟨emitted.1, post.2.1.trans emitted.2⟩

theorem settles_returnStatement (value : Option Expr) {code : Option (Lower Unit)}
    (h : ∀ c ∈ code, Tame c) : Settles (returnStatement value code) := by
  intro env G σ suits
  have back := settles_returnAccumulator env G σ suits
  have result : flowing.Steady env (code.getD (pure ())) (code.getD (pure ())) := by
    cases code with
    | none => exact .pure ()
    | some c => exact fun σ fields G => h c rfl env fields G σ
  refine .read (.choose (fun _ => ?_) fun _ => ?_)
  · have derived := Judgement.steady_derivedReturnValue (J := flowing) value False.elim result
    exact (derived σ suits.fields G).then back
  · cases code with
    | some c => exact (h c rfl env suits.fields).then back
    | none =>
      refine .choose (fun _ => (tame_loadVariable _ env suits.fields).then back) fun _ => ?_
      refine ⟨fun a sound => ?_⟩
      show Ends (unwind 0 env >>= fun _ => emitAt (.result a.code.size) .returnUndefined env) a _
      refine (ends_unwindAll suits sound).bind fun _ c post => ?_
      refine (ends_emitReturn post.1 rfl fun w => .inr ⟨rfl, post.2.2 w⟩).imp fun _ d _ emitted => ?_
      exact ⟨emitted.1, post.2.1.trans emitted.2⟩

/-! ## Throw -/

theorem neutral_popToRegion (bs : List Boundary) : Neutral (popToRegion bs) := by
  induction bs with
  | nil => exact .pure ()
  | cons b rest ih =>
    cases b with
    | region i => exact .pure ()
    | environment loop => exact fun G σ => neutral_popEnvironment.seq <| ih G σ
    | _ => exact ih

theorem neutral_throwStatement {value : Lower Unit} (h : Neutral (value env)) :
    Neutral (throwStatement value env) :=
  fun G σ => h.then <| .inspect fun a _ => (neutral_popToRegion a.boundaries).before <|
    neutral_emitAt rfl rfl G σ

end AccScript
