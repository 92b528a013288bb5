import AccScript.Lower.Jump
import AccScript.Proofs.Assembly.Ranges

/-!
# The way of a jump

Where a `break` or `continue` goes is a matter of the source: to the innermost statement around it
that accepts it.  `Enclosure.route?` finds that statement, together with what the jump leaves on its
way; `Leaves` says what code the way takes.

The assembler knows none of this.  It searches its lists of jump targets and unwinds its boundaries.
`Mirrors` relates the two: the boundaries and targets are those of the enclosures, up to the
innermost inlined copy of a finalizer.  What lies behind such a copy is not mirrored, because
targets that are being left are still in the lists.
-/

namespace AccScript

open Lower

/-! ## In the source -/

/-- Whether a statement with the given labels accepts a jump. -/
def acceptsName (names : List String) (acceptsUnlabelled : Bool) : Option String → Bool
  | some name => names.contains name
  | none => acceptsUnlabelled

namespace Enclosure

def target? (word : JumpWord) (name : Option String) : Enclosure → Option Label
  | .breakable behind names acceptsUnlabelled =>
      if word = .break ∧ acceptsName names acceptsUnlabelled name then some behind else none
  | .continuable next names =>
      if word = .continue ∧ acceptsName names true name then some next else none
  | _ => none

/-- What a jump leaves on its way to the innermost enclosure that accepts it, and the label that
it goes to. -/
def route? (word : JumpWord) (name : Option String) :
    List Enclosure → Option (List Enclosure × Label)
  | [] => none
  | e :: outer =>
      match e.target? word name with
      | some l => some ([], l)
      | none => (route? word name outer).map fun way => (e :: way.1, way.2)

/-- Whether leaving an enclosure takes no code. -/
def isSilent : Enclosure → Bool
  | .iteration _ | .guarded _ _ _ => false
  | _ => true

theorem route?_of_target?_eq_none
    {word : JumpWord} {name : Option String} {e : Enclosure} {outer : List Enclosure}
    (other : e.target? word name = none) :
    route? word name (e :: outer) = (route? word name outer).map fun way => (e :: way.1, way.2) := by
  rw [route?, other]

end Enclosure

/-! ## In the code -/

/-- Nothing but labels stands between two places. -/
def OnlyLabels (code : Array Emitted) (i j : Nat) : Prop :=
  i ≤ j ∧ ∀ k, i ≤ k → k < j → ∃ l, LabelAt code l k

/-- The code between two places leaves enclosures, the innermost first: it pops the environment of
every iteration and copies the finalizer of every guarded region. -/
inductive Leaves (code : Array Emitted) (copies : Array FinalizerCopy) :
    Nat → List Enclosure → Nat → Prop
  | arrived (k : Nat) : Leaves code copies k [] k
  | pop {k stop : Nat} {e : Emitted} {outer : List Enclosure} (loop : ScopeId) :
      code[k]? = some e → e.instruction = .popLexEnv → Leaves code copies (k + 1) outer stop →
      Leaves code copies k (.iteration loop :: outer) stop
  | copy {k start finish next stop region : Nat} {kind : FinalizerKind} {scope : ScopeId}
      {outer : List Enclosure} :
      OnlyLabels code k start → ⟨region, kind, scope, start, finish⟩ ∈ copies →
      OnlyLabels code finish next → Leaves code copies next outer stop →
      Leaves code copies k (.guarded region kind scope :: outer) stop
  | pass {k stop : Nat} {e : Enclosure} {outer : List Enclosure} :
      e.isSilent = true → Leaves code copies k outer stop → Leaves code copies k (e :: outer) stop

/-- A jump goes where the source sends it, unless it leaves an inlined copy of a finalizer. -/
def Emitted.Lands (e : Emitted) (code : Array Emitted) (copies : Array FinalizerCopy) (k : Nat) :
    Prop :=
  ∀ site word name start, e.site = some site → site.subject = .jump word name start →
    match Enclosure.route? word name site.enclosing with
    | some (between, l) => (∀ r, .finalizer r true ∉ between) →
        e.instruction = .jmp l ∧ Leaves code copies start between k
    | none => ∃ r, .finalizer r true ∈ site.enclosing

def Instruction.written : Instruction → List Register
  | .sta dst => [dst]
  | .mov dst _ => [dst]
  | _ => []

/-- The accumulator is kept in a register while other code runs. -/
structure Spares (code : Array Emitted) (v : Register) (start stop : Nat) : Prop where
  saved : ∃ e : Emitted, code[start]? = some e ∧ e.instruction = .sta v
  spared : ∀ (k : Nat) (e : Emitted), start < k → k < stop → code[k]? = some e →
    v ∉ e.instruction.written
  restored : ∃ e : Emitted, code[stop]? = some e ∧ e.instruction = .lda v

/-- The code between two places leaves enclosures and hands on the accumulator. -/
inductive HandsOn (code : Array Emitted) (copies : Array FinalizerCopy) :
    Nat → List Enclosure → Nat → Prop
  | direct {start stop : Nat} {es : List Enclosure} :
      (∀ region kind scope, .guarded region kind scope ∉ es) → Leaves code copies start es stop →
      HandsOn code copies start es stop
  | saved {start stop : Nat} {es : List Enclosure} {v : Register} :
      Spares code v start stop → Leaves code copies (start + 1) es stop →
      HandsOn code copies start es (stop + 1)

/-- A `return` leaves all that is around it, with its value in the accumulator. -/
def Emitted.Returns (e : Emitted) (code : Array Emitted) (copies : Array FinalizerCopy) (k : Nat) :
    Prop :=
  ∀ site start, e.site = some site → site.subject = .result start →
    (e.instruction = .return ∧ HandsOn code copies start site.enclosing k) ∨
      (e.instruction = .returnUndefined ∧ Leaves code copies start site.enclosing k)

/-- Jumps and returns leave what they should. -/
structure Emitted.Arrives (e : Emitted) (code : Array Emitted) (copies : Array FinalizerCopy)
    (k : Nat) : Prop where
  lands : e.Lands code copies k
  returns : e.Returns code copies k

theorem Emitted.Arrives.of_unsited
    {e : Emitted} {code : Array Emitted} {copies : Array FinalizerCopy} {k : Nat}
    (unsited : e.site = none) : e.Arrives code copies k where
  lands site word name start sited := by simp [unsited] at sited
  returns site start sited := by simp [unsited] at sited

theorem keepsInstructions {code code' : Array Emitted}
    (keeps : ∀ (k : Nat) (e : Emitted), code[k]? = some e → code'[k]? = some e) :
    ∀ (k : Nat) (e : Emitted), code[k]? = some e →
      ∃ e' : Emitted, code'[k]? = some e' ∧ e'.instruction = e.instruction :=
  fun k e found => ⟨e, keeps k e found, rfl⟩

section Growth

variable {code code' : Array Emitted} {copies copies' : Array FinalizerCopy}
  (keeps : ∀ (k : Nat) (e : Emitted), code[k]? = some e →
    ∃ e' : Emitted, code'[k]? = some e' ∧ e'.instruction = e.instruction)
  (more : ∀ c ∈ copies, c ∈ copies')

include keeps

theorem OnlyLabels.mono {i j : Nat} (h : OnlyLabels code i j) : OnlyLabels code' i j := by
  refine ⟨h.1, fun k after before => ?_⟩
  obtain ⟨l, e, found, label⟩ := h.2 k after before
  obtain ⟨e', found', same⟩ := keeps k e found
  exact ⟨l, e', found', same.trans label⟩

include more

theorem Leaves.mono {k stop : Nat} {between : List Enclosure} (h : Leaves code copies k between stop) :
    Leaves code' copies' k between stop := by
  induction h with
  | arrived k => exact .arrived k
  | pop loop found instruction _ ih =>
    obtain ⟨e', found', same⟩ := keeps _ _ found
    exact .pop loop found' (same.trans instruction) ih
  | copy before mem after _ ih =>
    exact .copy (before.mono keeps) (more _ mem) (after.mono keeps) ih
  | pass silent _ ih => exact .pass silent ih

theorem Emitted.Lands.mono
    {e e' : Emitted} {k : Nat} (h : e.Lands code copies k) (instruction : e'.instruction = e.instruction)
    (site : e'.site = e.site) : e'.Lands code' copies' k := by
  intro s word name start sited subject
  have lands := h s word name start (site ▸ sited) subject
  split
  · rename_i between l way
    simp only [way] at lands
    intro direct
    exact ⟨instruction.trans (lands direct).1, (lands direct).2.mono keeps more⟩
  · rename_i nowhere
    simpa only [nowhere] using lands

omit more in
theorem Spares.mono {v : Register} {start stop : Nat} (h : Spares code v start stop) :
    Spares code' v start stop := by
  refine ⟨?_, fun k e after before found => ?_, ?_⟩
  · obtain ⟨e, found, saved⟩ := h.saved
    obtain ⟨e', found', same⟩ := keeps _ e found
    exact ⟨e', found', same.trans saved⟩
  · obtain ⟨last, there, -⟩ := h.restored
    have inside := (Array.getElem?_eq_some_iff.mp there).1
    have old := Array.getElem?_eq_getElem (Nat.lt_trans before inside)
    obtain ⟨e', found', same⟩ := keeps k _ old
    rw [found, Option.some.injEq] at found'
    rw [found', same]
    exact h.spared k _ after before old
  · obtain ⟨e, found, restored⟩ := h.restored
    obtain ⟨e', found', same⟩ := keeps _ e found
    exact ⟨e', found', same.trans restored⟩

theorem HandsOn.mono {k stop : Nat} {es : List Enclosure} (h : HandsOn code copies k es stop) :
    HandsOn code' copies' k es stop := by
  cases h with
  | direct unguarded leaves => exact .direct unguarded (leaves.mono keeps more)
  | saved spares leaves => exact .saved (spares.mono keeps) (leaves.mono keeps more)

theorem Emitted.Arrives.mono {e e' : Emitted} {k : Nat} (h : e.Arrives code copies k)
    (instruction : e'.instruction = e.instruction) (site : e'.site = e.site) :
    e'.Arrives code' copies' k where
  lands := h.lands.mono keeps more instruction site
  returns s start sited subject := by
    refine (h.returns s start (site ▸ sited) subject).imp ?_ ?_
    · exact fun back => ⟨instruction.trans back.1, back.2.mono keeps more⟩
    · exact fun back => ⟨instruction.trans back.1, back.2.mono keeps more⟩

end Growth

/-! ## In the assembler -/

def JumpTarget.accepts (target : JumpTarget) (name : Option String) : Bool :=
  acceptsName target.names target.acceptsUnlabelled name

def JumpWord.targets (breakables continuables : List JumpTarget) : JumpWord → List JumpTarget
  | .break => breakables
  | .continue => continuables

/-- Boundaries are those of enclosures, the innermost first. -/
inductive Crosses (finalizers : List Code) : List Enclosure → List Boundary → Prop
  | nil : Crosses finalizers [] []
  | region {es bs} (i : Nat) :
      Crosses finalizers es bs → Crosses finalizers es (.region i :: bs)
  | copied {es bs} (region : Nat) (isInlined : Bool) :
      Crosses finalizers es bs → Crosses finalizers (.finalizer region isInlined :: es) bs
  | breakable {es bs} (behind : Label) (names : List String) (acceptsUnlabelled : Bool) :
      Crosses finalizers es bs →
      Crosses finalizers (.breakable behind names acceptsUnlabelled :: es) (.breakTarget :: bs)
  | continuable {es bs} (next : Label) (names : List String) :
      Crosses finalizers es bs →
      Crosses finalizers (.continuable next names :: es) (.continueTarget :: bs)
  | iteration {es bs} (loop : ScopeId) :
      Crosses finalizers es bs →
      Crosses finalizers (.iteration loop :: es) (.environment loop :: bs)
  | guarded {es bs region i kind finalizer env} :
      finalizers[i]? = some (copyOf region kind true finalizer env) → Crosses finalizers es bs →
      Crosses finalizers (.guarded region kind env.scope :: es) (.finalizer i :: bs)

/-- Boundaries and jump targets are those of enclosures, up to the innermost inlined copy of a
finalizer. -/
inductive Mirrors (finalizers : List Code) :
    List Enclosure → List Boundary → List JumpTarget → List JumpTarget → Prop
  | outside : Mirrors finalizers [] [] [] []
  | inlined (region : Nat) (es : List Enclosure) (bs : List Boundary) (ts us : List JumpTarget) :
      Mirrors finalizers (.finalizer region true :: es) bs ts us
  | trailing {es bs ts us} (region : Nat) :
      Mirrors finalizers es bs ts us → Mirrors finalizers (.finalizer region false :: es) bs ts us
  | region {es bs ts us} (i : Nat) :
      Mirrors finalizers es bs ts us → Mirrors finalizers es (.region i :: bs) ts us
  | breakable {es bs ts us} (behind : Label) (names : List String) (acceptsUnlabelled : Bool) :
      Mirrors finalizers es bs ts us →
      Mirrors finalizers (.breakable behind names acceptsUnlabelled :: es) (.breakTarget :: bs)
        (⟨behind, names, acceptsUnlabelled, bs.length⟩ :: ts) us
  | continuable {es bs ts us} (next : Label) (names : List String) :
      Mirrors finalizers es bs ts us →
      Mirrors finalizers (.continuable next names :: es) (.continueTarget :: bs) ts
        (⟨next, names, true, bs.length⟩ :: us)
  | iteration {es bs ts us} (loop : ScopeId) :
      Mirrors finalizers es bs ts us →
      Mirrors finalizers (.iteration loop :: es) (.environment loop :: bs) ts us
  | guarded {es bs ts us region i kind finalizer env} :
      finalizers[i]? = some (copyOf region kind true finalizer env) →
      Mirrors finalizers es bs ts us →
      Mirrors finalizers (.guarded region kind env.scope :: es) (.finalizer i :: bs) ts us

theorem Crosses.append {finalizers : List Code} {es : List Enclosure} {bs : List Boundary}
    (h : Crosses finalizers es bs) (more : List Code) : Crosses (finalizers ++ more) es bs := by
  induction h with
  | nil => exact .nil
  | region i _ ih => exact .region i ih
  | copied region isInlined _ ih => exact .copied region isInlined ih
  | breakable behind names acceptsUnlabelled _ ih =>
    exact .breakable behind names acceptsUnlabelled ih
  | continuable next names _ ih => exact .continuable next names ih
  | iteration loop _ ih => exact .iteration loop ih
  | guarded found _ ih =>
    have inside := (List.getElem?_eq_some_iff.mp found).1
    exact .guarded ((List.getElem?_append_left inside).trans found) ih

namespace Mirrors

variable {finalizers : List Code} {es between : List Enclosure} {bs : List Boundary}
  {ts us : List JumpTarget} {word : JumpWord} {name : Option String} {l : Label}

theorem append (h : Mirrors finalizers es bs ts us) (more : List Code) :
    Mirrors (finalizers ++ more) es bs ts us := by
  induction h with
  | outside => exact .outside
  | inlined region es bs ts us => exact .inlined region es bs ts us
  | trailing region _ ih => exact .trailing region ih
  | region i _ ih => exact .region i ih
  | breakable behind names acceptsUnlabelled _ ih =>
    exact .breakable behind names acceptsUnlabelled ih
  | continuable next names _ ih => exact .continuable next names ih
  | iteration loop _ ih => exact .iteration loop ih
  | guarded found _ ih =>
    have inside := (List.getElem?_eq_some_iff.mp found).1
    exact .guarded ((List.getElem?_append_left inside).trans found) ih

end Mirrors

/-! ## The search of a jump -/

def Seeks (finalizers : List Code) (bs : List Boundary) (targets : List JumpTarget)
    (name : Option String) (between : List Enclosure) (l : Label) : Prop :=
  ∃ left b outer target, bs = left ++ b :: outer ∧ Crosses finalizers between left ∧
    target.label = l ∧ target.depth = outer.length ∧
    ∀ n, bs.length ≤ n → targets.find? (fun t => t.depth < n && t.accepts name) = some target

namespace Seeks

variable {finalizers : List Code} {es between between' : List Enclosure} {bs : List Boundary}
  {targets targets' : List JumpTarget} {name : Option String} {l : Label}

theorem here {names : List String} {acceptsUnlabelled : Bool}
    (accepts : acceptsName names acceptsUnlabelled name = true) (b : Boundary) :
    Seeks finalizers (b :: bs) (⟨l, names, acceptsUnlabelled, bs.length⟩ :: targets) name [] l := by
  refine ⟨[], b, bs, ⟨l, names, acceptsUnlabelled, bs.length⟩, rfl, .nil, rfl, rfl,
    fun n long => ?_⟩
  have inside : bs.length < n := long
  simp [JumpTarget.accepts, accepts, inside]

theorem further (h : Seeks finalizers bs targets name between l) {b : Boundary}
    (crosses : ∀ left, Crosses finalizers between left → Crosses finalizers between' (b :: left))
    (passes : ∀ n, targets'.find? (fun t => t.depth < n && t.accepts name) =
      targets.find? fun t => t.depth < n && t.accepts name) :
    Seeks finalizers (b :: bs) targets' name between' l := by
  obtain ⟨left, b', outer, target, rfl, inside, label, depth, found⟩ := h
  refine ⟨b :: left, b', outer, target, rfl, crosses left inside, label, depth, fun n long => ?_⟩
  rw [passes]
  exact found n (Nat.le_of_succ_le long)

theorem passes_refusing {names : List String} {acceptsUnlabelled : Bool}
    (refuses : acceptsName names acceptsUnlabelled name = false) (target : Label) (depth n : Nat) :
    ((⟨target, names, acceptsUnlabelled, depth⟩ : JumpTarget) :: targets).find?
        (fun t => t.depth < n && t.accepts name) =
      targets.find? fun t => t.depth < n && t.accepts name := by
  simp [JumpTarget.accepts, refuses]

end Seeks

namespace Mirrors

variable {finalizers : List Code} {es between : List Enclosure} {bs : List Boundary}
  {ts us : List JumpTarget} {word : JumpWord} {name : Option String} {l : Label}

theorem route?_cons {e : Enclosure} (other : e.target? word name = none)
    (way : Enclosure.route? word name (e :: es) = some (between, l)) :
    ∃ between', Enclosure.route? word name es = some (between', l) ∧ between = e :: between' := by
  rw [Enclosure.route?_of_target?_eq_none other] at way
  obtain ⟨⟨between', l'⟩, further, same⟩ := Option.map_eq_some_iff.mp way
  cases same
  exact ⟨between', further, rfl⟩

/-- The search of a jump finds the statement that the source means. -/
theorem seeks (h : Mirrors finalizers es bs ts us)
    (way : Enclosure.route? word name es = some (between, l))
    (direct : ∀ r, .finalizer r true ∉ between) :
    Seeks finalizers bs (word.targets ts us) name between l := by
  induction h generalizing between with
  | outside => cases way
  | inlined region es bs ts us =>
    obtain ⟨between', -, rfl⟩ := route?_cons rfl way
    exact absurd (.head _) (direct region)
  | trailing region _ ih =>
    obtain ⟨between', further, rfl⟩ := route?_cons rfl way
    obtain ⟨left, b, outer, target, split, crosses, found⟩ :=
      ih further fun r mem => direct r (.tail _ mem)
    exact ⟨left, b, outer, target, split, .copied region false crosses, found⟩
  | region i _ ih => exact (ih way direct).further (fun _ => .region i) fun _ => rfl
  | breakable behind names acceptsUnlabelled _ ih =>
    by_cases accepted : word = .break ∧ acceptsName names acceptsUnlabelled name = true
    · obtain ⟨rfl, accepts⟩ := accepted
      simp only [Enclosure.route?, Enclosure.target?, accepts, and_self, if_true, Option.some.injEq,
        Prod.mk.injEq] at way
      obtain ⟨rfl, rfl⟩ := way
      exact .here accepts .breakTarget
    · obtain ⟨between', further, rfl⟩ := route?_cons (by simp [Enclosure.target?, accepted]) way
      have rest := ih further fun r mem => direct r (.tail _ mem)
      refine rest.further (fun _ => .breakable behind names acceptsUnlabelled) fun n => ?_
      cases word with
      | «continue» => rfl
      | «break» => exact Seeks.passes_refusing (by simpa using accepted) _ _ n
  | continuable next names _ ih =>
    by_cases accepted : word = .continue ∧ acceptsName names true name = true
    · obtain ⟨rfl, accepts⟩ := accepted
      simp only [Enclosure.route?, Enclosure.target?, accepts, and_self, if_true, Option.some.injEq,
        Prod.mk.injEq] at way
      obtain ⟨rfl, rfl⟩ := way
      exact .here accepts .continueTarget
    · obtain ⟨between', further, rfl⟩ := route?_cons (by simp [Enclosure.target?, accepted]) way
      have rest := ih further fun r mem => direct r (.tail _ mem)
      refine rest.further (fun _ => .continuable next names) fun n => ?_
      cases word with
      | «break» => rfl
      | «continue» => exact Seeks.passes_refusing (by simpa using accepted) _ _ n
  | iteration loop _ ih =>
    obtain ⟨between', further, rfl⟩ := route?_cons rfl way
    have rest := ih further fun r mem => direct r (.tail _ mem)
    exact rest.further (fun _ => .iteration loop) fun _ => rfl
  | guarded found _ ih =>
    obtain ⟨between', further, rfl⟩ := route?_cons rfl way
    have rest := ih further fun r mem => direct r (.tail _ mem)
    exact rest.further (fun _ => .guarded found) fun _ => rfl

theorem find?_eq_none (h : Mirrors finalizers es bs ts us)
    (nowhere : Enclosure.route? word name es = none) (direct : ∀ r, .finalizer r true ∉ es)
    (n : Nat) : (word.targets ts us).find? (fun t => t.depth < n && t.accepts name) = none := by
  have outer : ∀ {e : Enclosure} {es : List Enclosure},
      Enclosure.route? word name (e :: es) = none →
        e.target? word name = none ∧ Enclosure.route? word name es = none := by
    intro e es nowhere
    cases target : e.target? word name with
    | some l => simp [Enclosure.route?, target] at nowhere
    | none => simpa [Enclosure.route?, target] using nowhere
  induction h with
  | outside => cases word <;> rfl
  | inlined region es bs ts us => exact absurd (.head _) (direct region)
  | region i _ ih => exact ih nowhere direct
  | trailing region _ ih | iteration region _ ih | guarded _ _ ih =>
    exact ih (outer nowhere).2 fun r mem => direct r (.tail _ mem)
  | breakable behind names acceptsUnlabelled _ ih =>
    obtain ⟨refuses, further⟩ := outer nowhere
    have rest := ih further fun r mem => direct r (.tail _ mem)
    cases word with
    | «continue» => exact rest
    | «break» =>
      rw [← rest]
      exact Seeks.passes_refusing (by simpa [Enclosure.target?] using refuses) _ _ n
  | continuable next names _ ih =>
    obtain ⟨refuses, further⟩ := outer nowhere
    have rest := ih further fun r mem => direct r (.tail _ mem)
    cases word with
    | «break» => exact rest
    | «continue» =>
      rw [← rest]
      exact Seeks.passes_refusing (by simpa [Enclosure.target?] using refuses) _ _ n

end Mirrors

end AccScript
