import AccScript.Proofs.Assembly.Flow

/-!
# Boundaries and protected ranges

Statements push boundaries and jump targets and take them away again.  A region is open between its
begin and its end; it may be closed for a while, which takes a label at either side.
-/

namespace AccScript

open Asm Lower

variable {G : Guard} {σ : Stage} {opened opened' : List Nat} {a : Assembler} {region : Nat}
  {b : Assembler} {l : Label}

/-! ## Stages -/

namespace Stage

/-- Inside of more boundaries. -/
@[simps temps labels placed]
def enter (σ : Stage) (bs : List Boundary) : Stage :=
  { σ with boundaries := bs ++ σ.boundaries }

/-- Inside of a statement that `break` leaves. -/
def breakable (σ : Stage) (l : Label) (names : List String) (acceptsUnlabelled : Bool) : Stage :=
  { σ with
    breakables := ⟨l, names, acceptsUnlabelled, σ.boundaries.length⟩ :: σ.breakables }.enter
      [.breakTarget]

/-- Inside of a statement that `continue` leaves. -/
def continuable (σ : Stage) (l : Label) (names : List String) : Stage :=
  { σ with continuables := ⟨l, names, true, σ.boundaries.length⟩ :: σ.continuables }.enter
    [.continueTarget]

@[simps temps labels placed]
def make (σ : Stage) (region : Nat) : Stage :=
  { σ with made := region :: σ.made }

variable (σ : Stage) (l : Label) (names : List String) (unlabelled : Bool)

@[simp] theorem temps_breakable : (σ.breakable l names unlabelled).temps = σ.temps := rfl
@[simp] theorem labels_breakable : (σ.breakable l names unlabelled).labels = σ.labels := rfl
@[simp] theorem placed_breakable : (σ.breakable l names unlabelled).placed = σ.placed := rfl

end Stage

/-! ## Changes of boundaries -/

namespace SoundAt

/-- Only membership in the list of open regions counts. -/
theorem reopen (h : SoundAt G σ opened a) (same : G.watched → ∀ i, i ∈ opened' ↔ i ∈ opened) :
    SoundAt G σ opened' a := by
  refine { h with watches := fun watched => ?_ }
  have w := h.watches watched
  refine { w with regions := { w.regions with sound := fun i region found => ?_ } }
  have sound := w.regions.sound i region found
  exact { sound with isOpen := sound.isOpen.trans (same watched i).symm }

theorem reregion (h : SoundAt G σ opened a) {regions : Array TryRegion} {bs bs' : List Boundary}
    (bounds : bs' = bs) {made : List Nat}
    (regional : G.watched → Regional σ.labels opened' bs a.code regions)
    (more : a.regions.size ≤ regions.size)
    (shut : G.watched → ∀ i ∈ G.shut, .region i ∉ bs)
    (makes : ∀ i ∈ made, i ∈ σ.made ∨ i < regions.size) :
    SoundAt G { σ with boundaries := bs, made } opened' { a with boundaries := bs', regions } := by
  refine ⟨bounds, h.breakables, h.continuables, h.allocates.congr rfl rfl rfl, fun watched => ?_⟩
  have w := h.watches watched
  refine ⟨w.labels, regional watched, w.operands, w.copies, w.arrives, w.visits, fun i mem => ?_,
    fun i mem => ?_⟩
  · exact ⟨Nat.lt_of_lt_of_le (w.shut i mem).1 more, shut watched i mem⟩
  · rcases makes i mem with old | new
    · exact Nat.lt_of_lt_of_le (w.made i old) more
    · exact new

theorem rebound
    (h : SoundAt G σ opened a) {bs : List Boundary} (nests : G.watched → Nests a.regions bs)
    (shut : G.watched → ∀ i ∈ G.shut, .region i ∉ bs) :
    SoundAt G { σ with boundaries := bs } opened { a with boundaries := bs } :=
  h.reregion rfl (fun watched => (h.watches watched).regions.reframe (nests watched)) (Nat.le_refl _)
    shut fun _ => .inl

theorem retarget (h : SoundAt G σ opened a) (breakables continuables : List JumpTarget) :
    SoundAt G { σ with breakables, continuables } opened { a with breakables, continuables } :=
  ⟨h.boundaries, rfl, rfl, h.allocates.congr rfl rfl rfl, fun watched =>
    have w := h.watches watched
    ⟨w.labels, w.regions, w.operands, w.copies, w.arrives, w.visits, w.shut, w.made⟩⟩

theorem enter (h : SoundAt G σ opened a) {b : Boundary} (plain : ∀ i, b ≠ .region i) :
    SoundAt G (σ.enter [b]) opened { a with boundaries := b :: a.boundaries } := by
  rw [h.boundaries]
  refine h.rebound (fun watched => ((h.watches watched).regions.current).cons plain) ?_
  intro watched i mem inside
  rcases List.mem_cons.mp inside with same | inside
  · exact plain i same.symm
  · exact ((h.watches watched).shut i mem).2 inside

theorem leave (h : SoundAt G σ opened a) (left : List Boundary) {rest : List Boundary}
    (split : σ.boundaries = left ++ rest) :
    SoundAt G { σ with boundaries := rest } opened { a with boundaries := rest } := by
  have suffix : rest <:+ σ.boundaries := split ▸ List.suffix_append left rest
  refine h.rebound (fun watched => ((h.watches watched).regions.current).of_suffix suffix) ?_
  exact fun watched i mem inside => ((h.watches watched).shut i mem).2 (suffix.subset inside)

end SoundAt

theorem filterMap_region?_cons {b : Boundary} (plain : ∀ i, b ≠ .region i) (bs : List Boundary) :
    (b :: bs).filterMap Boundary.region? = bs.filterMap Boundary.region? := by
  refine List.filterMap_cons_none ?_
  cases b with
  | region i => exact absurd rfl (plain i)
  | _ => rfl

theorem mem_filterMap_region? {i : Nat} {bs : List Boundary} :
    i ∈ bs.filterMap Boundary.region? ↔ .region i ∈ bs := by
  rw [List.mem_filterMap]
  constructor
  · rintro ⟨b, mem, same⟩
    cases b <;> cases same
    exact mem
  · exact fun mem => ⟨.region i, mem, rfl⟩

/-! ## States of control -/

theorem SoundAt.isOpen_iff (h : Sound G σ a) (watched : G.watched) (i : Nat) :
    a.isOpen i = true ↔ .region i ∈ σ.boundaries := by
  have w := h.watches watched
  cases found : a.regions[i]? with
  | none =>
    simp only [Assembler.isOpen, found, Option.any_none, Bool.false_eq_true, false_iff]
    intro mem
    obtain ⟨outer, suffix⟩ := mem_region_iff.mp mem
    obtain ⟨region, there, -⟩ := w.regions.current i outer suffix
    rw [found] at there
    cases there
  | some region =>
    rw [Assembler.isOpen, found, Option.any_some, (w.regions.sound i region found).isOpen,
      mem_filterMap_region?]

/-- Code that ends at the stage where it began leaves control as it was. -/
theorem SoundAt.control_eq (before : Sound G σ a) (after : Sound G σ b)
    (grows : Grows G a b) (watched : G.watched) (scope : ScopeId) :
    b.control scope = a.control scope := by
  have opened : b.isOpen = a.isOpen := by
    funext i
    rw [Bool.eq_iff_iff, after.isOpen_iff watched, before.isOpen_iff watched]
  have openScopes : b.openScopes = a.openScopes := congrArg Prod.snd grows.visible
  -- Regions that are new are closed again.
  have regions : (List.range b.regions.size).filter a.isOpen =
      (List.range a.regions.size).filter a.isOpen := by
    obtain ⟨more, size⟩ := Nat.le.dest grows.regions_le
    rw [← size, List.range_add, List.filter_append, List.append_right_eq_self, List.filter_eq_nil_iff]
    intro i mem
    obtain ⟨j, -, rfl⟩ := List.mem_map.mp mem
    simp [Assembler.isOpen]
  simp only [Assembler.control, opened, openScopes, regions, after.boundaries, after.breakables,
    after.continuables, before.boundaries, before.breakables, before.continuables]

/-! ## Boundaries that are no regions -/

section Plain

variable (b : Boundary) (plain : ∀ i, b ≠ .region i)

include plain

theorem flows_startBoundary : Flows G σ (startBoundary b) fun _ => σ.enter [b] := by
  refine .of_run fun a sound => ⟨(), { a with boundaries := b :: a.boundaries }, rfl, ?_,
    .of_same rfl⟩
  have same : (σ.enter [b]).boundaries.filterMap Boundary.region? = _ :=
    filterMap_region?_cons plain σ.boundaries
  rw [Sound, same]
  exact sound.enter plain

theorem flows_endBoundary : Flows G (σ.enter [b]) (endBoundary b) fun _ => σ := by
  refine .of_run fun a sound => ⟨(), _, run_endBoundary sound.boundaries, ?_,
    .of_same rfl⟩
  have same : (σ.enter [b]).boundaries.filterMap Boundary.region? = _ :=
    filterMap_region?_cons plain σ.boundaries
  rw [Sound, ← same]
  exact SoundAt.leave sound [b] rfl

end Plain

theorem flows_retarget {f : Assembler → Assembler} (breakables continuables : List JumpTarget)
    (h : ∀ a, Sound G σ a → f a = { a with breakables, continuables }) :
    Flows G σ (modify f : Code) fun _ => { σ with breakables, continuables } := by
  refine .of_run fun a sound => ⟨(), f a, rfl, ?_, ?_⟩
  · rw [h a sound]
    exact sound.retarget breakables continuables
  · rw [h a sound]
    exact .of_same rfl

theorem flows_beginBreakable (l : Label) (names : List String) (acceptsUnlabelled : Bool) :
    Flows G σ (beginBreakable l names acceptsUnlabelled)
      fun _ => σ.breakable l names acceptsUnlabelled := by
  refine Flows.bind (flows_retarget (⟨l, names, acceptsUnlabelled, σ.boundaries.length⟩ ::
    σ.breakables) σ.continuables fun a sound => ?_) fun _ => flows_startBoundary .breakTarget nofun
  rw [sound.boundaries, sound.breakables, ← sound.continuables]

theorem flows_endBreakable {names : List String} {acceptsUnlabelled : Bool} :
    Flows G (σ.breakable l names acceptsUnlabelled) endBreakable fun _ => σ := by
  refine (flows_endBoundary .breakTarget nofun).seq <|
    flows_retarget σ.breakables σ.continuables fun a sound => ?_
  rw [sound.breakables, ← sound.continuables]
  rfl

theorem flows_beginContinuable (l : Label) (names : List String) :
    Flows G σ (beginContinuable l names) fun _ => σ.continuable l names := by
  refine Flows.bind (flows_retarget σ.breakables (⟨l, names, true, σ.boundaries.length⟩ ::
    σ.continuables) fun a sound => ?_) fun _ => flows_startBoundary .continueTarget nofun
  rw [sound.boundaries, sound.continuables, ← sound.breakables]

theorem flows_endContinuable {names : List String} :
    Flows G (σ.continuable l names) endContinuable fun _ => σ := by
  refine (flows_endBoundary .continueTarget nofun).seq <|
    flows_retarget σ.breakables σ.continuables fun a sound => ?_
  rw [sound.continuables, ← sound.breakables]
  rfl

/-! ## Regions -/

/-- The assembler after a label that was made and placed at once. -/
def Assembler.withLabel (a : Assembler) : Assembler :=
  { a with
    nextLabel := a.nextLabel + 1
    code := a.code.push ⟨.label ⟨a.nextLabel⟩, a.origin, a.placement none⟩ }

theorem SoundAt.withLabel (h : SoundAt G σ opened a) : SoundAt G σ opened a.withLabel :=
  SoundAt.place (e := ⟨.label ⟨a.nextLabel⟩, a.origin, a.placement none⟩) h.fresh rfl h.boundaries
    rfl (.refl _) fun _ => .inr

theorem labelAt_withLabel (a : Assembler) : LabelAt a.withLabel.code ⟨a.nextLabel⟩ a.code.size :=
  labelAt_push_self rfl

theorem size_withLabel (a : Assembler) : a.withLabel.code.size = a.code.size + 1 :=
  Array.size_push _

theorem OnlyLabels.refl (code : Array Emitted) (k : Nat) : OnlyLabels code k k :=
  ⟨Nat.le_refl k, fun _ after before => absurd after (Nat.not_le.mpr before)⟩

theorem OnlyLabels.trans {code : Array Emitted} {i j k : Nat} (first : OnlyLabels code i j)
    (second : OnlyLabels code j k) : OnlyLabels code i k := by
  refine ⟨Nat.le_trans first.1 second.1, fun n after before => ?_⟩
  by_cases inside : n < j
  · exact first.2 n after inside
  · exact second.2 n (Nat.not_lt.mp inside) before

theorem OnlyLabels.pushed {code : Array Emitted} {e : Emitted}
    (label : e.instruction = .label l) : OnlyLabels (code.push e) code.size (code.push e).size := by
  refine ⟨by simp, fun k after before => ⟨l, ?_⟩⟩
  obtain rfl : k = code.size := by
    rw [Array.size_push] at before
    omega
  exact labelAt_push_self label

theorem around_modify {regions : Array TryRegion} {i : Nat} {f : TryRegion → TryRegion}
    (around : ∀ region, (f region).around = region.around) (j : Nat) (region : TryRegion)
    (found : regions[j]? = some region) :
    ∃ region', (regions.modify i f)[j]? = some region' ∧ region'.around = region.around := by
  rw [Array.getElem?_modify, found]
  by_cases same : i = j
  · exact ⟨f region, by simp [same], around region⟩
  · exact ⟨region, by simp [same], rfl⟩

/-- A region is changed at a label that is placed at once. -/
theorem SoundAt.modifyRegion (h : SoundAt G σ opened a) {i : Nat} {f : TryRegion → TryRegion}
    (around : ∀ region, (f region).around = region.around)
    (regional : G.watched → Regional σ.labels opened' σ.boundaries a.withLabel.code (a.regions.modify i f)) :
    SoundAt G σ opened' { a.withLabel with regions := a.regions.modify i f } ∧
      Grows G a { a.withLabel with regions := a.regions.modify i f } ∧
      OnlyLabels a.withLabel.code a.code.size a.withLabel.code.size := by
  have grows : Grows G a a.withLabel := .label h rfl rfl
  exact ⟨h.withLabel.reregion h.boundaries regional (Nat.le_of_eq (Array.size_modify ..).symm)
    (fun watched j mem => ((h.watches watched).shut j mem).2) fun _ => .inl,
    grows.trans (.of_same_code rfl (fun _ mem => mem) (around_modify around) rfl fun _ mem => mem), .pushed rfl⟩

theorem ends_closeTry (h : SoundAt G σ opened a) (i : Nat) :
    Ends (closeTry i) a fun _ b => SoundAt G σ (opened.filter (· ≠ i)) b ∧ Grows G a b ∧
      OnlyLabels b.code a.code.size b.code.size := by
  cases found : a.regions[i]? with
  | none =>
    refine .of_error ?_ Failure.not_blames_unmet
    rw [closeTry, StateT.run_bind, StateT.run_get, pure_bind, found]
    rfl
  | some region =>
    cases isOpen : region.opened with
    | none =>
      refine .of_run (x := ()) (b := a) ?_ ⟨h.reopen fun watched j => ?_, .refl a, .refl _ _⟩
      · rw [closeTry, StateT.run_bind, StateT.run_get, pure_bind, found]
        simp only [isOpen]
        rfl
      · have sound := (h.watches watched).regions.sound i region found
        have closed : i ∉ opened := fun mem => by
          have := sound.isOpen.mpr mem
          simp [isOpen] at this
        rw [List.mem_filter, decide_eq_true_eq]
        exact ⟨And.left, fun mem => ⟨mem, fun same => closed (same ▸ mem)⟩⟩
    | some start =>
      refine .of_run (x := ()) ?_ (h.modifyRegion (i := i) (f := fun region =>
        { region with ranges := region.ranges ++ [(start, ⟨a.nextLabel⟩)], opened := none })
        (fun _ => rfl) fun watched => ?_)
      · rw [closeTry, StateT.run_bind, StateT.run_get, pure_bind, found]
        simp only [isOpen]
        rfl
      · refine (h.withLabel.watches watched).regions.closeRange found isOpen (labelAt_withLabel a)
          (size_withLabel a) ?_
        -- The label of the beginning was placed before that of the end was made.
        rintro rfl
        obtain ⟨k, begins⟩ := ((h.watches watched).regions.sound i region found).start _ isOpen
        exact Nat.lt_irrefl _ ((h.watches watched).labels.own begins).2

theorem ends_resumeTry (h : SoundAt G σ opened a) (i : Nat) :
    Ends (resumeTry i) a fun _ b => SoundAt G σ (i :: opened) b ∧ Grows G a b ∧
      OnlyLabels b.code a.code.size b.code.size := by
  cases found : a.regions[i]? with
  | none =>
    refine .of_error ?_ Failure.not_blames_unmet
    rw [resumeTry, StateT.run_bind, StateT.run_get, pure_bind, found]
    rfl
  | some region =>
    cases isOpen : region.opened with
    | some start =>
      refine .of_run (x := ()) (b := a) ?_ ⟨h.reopen fun watched j => ?_, .refl a, .refl _ _⟩
      · rw [resumeTry, StateT.run_bind, StateT.run_get, pure_bind, found]
        simp only [isOpen]
        rfl
      · have sound := (h.watches watched).regions.sound i region found
        have mem : i ∈ opened := sound.isOpen.mp (by simp [isOpen])
        rw [List.mem_cons]
        exact ⟨fun either => either.elim (fun same => same ▸ mem) id, .inr⟩
    | none =>
      refine .of_run (x := ()) ?_ (h.modifyRegion (i := i) (f := fun region =>
        { region with opened := some ⟨a.nextLabel⟩ }) (fun _ => rfl) fun watched => ?_)
      · rw [resumeTry, StateT.run_bind, StateT.run_get, pure_bind, found]
        simp only [isOpen]
        rfl
      · have w := h.withLabel.watches watched
        exact w.regions.resumeRange w.labels.unique found isOpen (labelAt_withLabel a)
          (size_withLabel a)

theorem flows_beginTry {handler : Label} (known : σ.Knows handler) :
    Flows G σ (beginTry handler) fun region => (σ.make region).enter [.region region] := by
  refine .of_run fun a sound => ?_
  have placed := sound.withLabel
  have grows : Grows G a a.withLabel := .label sound rfl rfl
  refine ⟨a.regions.size, { a.withLabel with
    regions := a.regions.push
      { handler, opened := some ⟨a.nextLabel⟩, around := a.boundaries }
    boundaries := .region a.regions.size :: a.boundaries }, rfl, ?_, grows.trans ?_⟩
  · refine placed.reregion (congrArg _ sound.boundaries) (fun watched => ?_) ?_
      (fun watched i mem inside => ?_) fun i mem => ?_
    · have w := placed.watches watched
      rw [sound.boundaries]
      refine w.regions.pushRegion w.labels.unique (labelAt_withLabel a) (size_withLabel a) ?_
      exact known.imp id (w.labels.placed handler)
    · simp [Assembler.withLabel]
    · have old := (sound.watches watched).shut i mem
      rcases List.mem_cons.mp inside with same | inside
      · cases same
        exact Nat.lt_irrefl _ old.1
      · exact old.2 inside
    · rcases List.mem_cons.mp mem with rfl | old
      · exact .inr (by simp)
      · exact .inl old
  · exact .of_same_code rfl (fun _ mem => mem)
      (fun i region found => ⟨region, getElem?_push_of_some found _, rfl⟩) rfl fun _ mem => mem

theorem SoundAt.region_not_mem
    (h : SoundAt G (σ.enter [.region region]) opened a) (watched : G.watched) :
    .region region ∉ σ.boundaries :=
  (h.watches watched).regions.current.not_mem_around (List.suffix_refl _)

theorem flows_endTry : Flows G (σ.enter [.region region]) (endTry region) fun _ => σ := by
  refine ⟨fun a sound => ?_⟩
  have left : SoundAt G σ _ { a with boundaries := σ.boundaries } :=
    SoundAt.leave sound [.region region] rfl
  have first : Ends (endBoundary (.region region)) a fun _ b =>
      b = { a with boundaries := σ.boundaries } :=
    .of_run (run_endBoundary sound.boundaries) rfl
  refine first.bind fun _ b same => ?_
  subst same
  refine (ends_closeTry left region).imp fun _ b _ post => ⟨post.1.reopen fun watched i => ?_, ?_⟩
  · have once := sound.region_not_mem watched
    rw [List.mem_filter, decide_eq_true_eq, mem_filterMap_region?, mem_filterMap_region?]
    constructor
    · exact fun mem => ⟨.tail _ mem, fun same => once (same ▸ mem)⟩
    · rintro ⟨mem, other⟩
      refine (List.mem_cons.mp mem).resolve_left fun same => other ?_
      exact Boundary.region.inj same
  · have same : Grows G a { a with boundaries := σ.boundaries } := .of_same rfl
    exact same.trans post.2.1

theorem Flows.unmake {α : Type} {m : Asm α} {τ : α → Stage} (region : Nat)
    (h : Flows G σ m fun x => (τ x).make region) : Flows G σ m τ :=
  h.weaken fun _ _ sound => sound.forget (List.Subset.refl _) (List.subset_cons_self _ _)

/-! ## Copies of finalizers -/

namespace Guard

def shutting (G : Guard) (region : Nat) : Guard :=
  { G with shut := region :: G.shut }

end Guard

theorem Grows.of_shutting (h : Grows (G.shutting region) a b) : Grows G a b where
  keeps := h.keeps
  copies := h.copies
  visits := h.visits
  visible := h.visible
  around := h.around
  writes := h.writes
  shut watched k e new found i mem :=
    h.shut watched k e new found i (.tail _ mem)

theorem SoundAt.shutting (h : SoundAt G σ opened a) (made : region ∈ σ.made)
    (outside : G.watched → .region region ∉ σ.boundaries) :
    SoundAt (G.shutting region) σ opened a := by
  refine ⟨h.boundaries, h.breakables, h.continuables, h.allocates, fun watched => ?_⟩
  have w := h.watches watched
  refine ⟨w.labels, w.regions, w.operands, w.copies, w.arrives, w.visits, fun i mem => ?_, w.made⟩
  rcases List.mem_cons.mp mem with rfl | mem
  · exact ⟨w.made i made, outside watched⟩
  · exact w.shut i mem

theorem SoundAt.of_shutting (h : SoundAt (G.shutting region) σ opened a) :
    SoundAt G σ opened a := by
  refine ⟨h.boundaries, h.breakables, h.continuables, h.allocates, fun watched => ?_⟩
  have w := h.watches watched
  exact ⟨w.labels, w.regions, w.operands, w.copies, w.arrives, w.visits,
    fun i mem => w.shut i (.tail _ mem), w.made⟩

theorem flows_copyOf {kind : FinalizerKind} {isInlined : Bool} {finalizer : Lower Unit} {env : Env}
    (made : region ∈ σ.made) (outside : G.watched → .region region ∉ σ.boundaries)
    (closes : ∀ r, kind = .closing r → finalizer = emit (.closeIterator r))
    (h : Flows (G.shutting region) σ (within (.finalizer region isInlined) finalizer env)
      fun _ => σ) :
    Flows G σ (copyOf region kind isInlined finalizer env) fun _ => σ := by
  refine ⟨fun a sound => ?_⟩
  show Ends (within (.finalizer region isInlined) finalizer env >>= fun _ =>
    noteCopy region kind env.scope a.code.size) a _
  have copied := (h.ends a (sound.shutting made outside)).imp
    (Q := fun x b => (Sound (G.shutting region) σ b ∧ Grows (G.shutting region) a b) ∧
      (within (.finalizer region isInlined) finalizer env).run a = .ok (x, b))
    fun _ b run post => ⟨post, run⟩
  refine copied.bind fun _ b ⟨post, run⟩ => .of_run rfl ⟨?_, ?_⟩
  · have sound' := post.1.of_shutting
    refine ⟨sound'.boundaries, sound'.breakables, sound'.continuables,
      sound'.allocates.congr rfl rfl rfl, fun watched => ?_⟩
    have w := sound'.watches watched
    refine ⟨w.labels, w.regions, w.operands, fun c mem => ?_, fun k e found => ?_, w.visits, w.shut,
      w.made⟩
    · rcases Array.mem_push.mp mem with old | rfl
      · exact w.copies c old
      · refine ⟨post.2.size_le, Nat.le_refl _, fun k e after _ found => ?_, fun r same => ?_⟩
        · exact post.2.shut watched k e after found region (.head _)
        · rw [closes r same] at run
          cases run
          exact ⟨Array.size_push _, _, Array.getElem?_push_size, rfl⟩
    · exact (w.arrives k e found).mono (keepsInstructions fun _ _ found => found)
        (fun c mem => Array.mem_push.mpr (.inl mem)) rfl rfl
  · exact post.2.of_shutting.trans (.of_same_code rfl (fun c mem => Array.mem_push.mpr (.inl mem))
      (fun i region found => ⟨region, found, rfl⟩) rfl fun _ mem => mem)

theorem mem_copies_of_copyOf
    {kind : FinalizerKind} {isInlined : Bool} {finalizer : Lower Unit} {env : Env}
    (run : (copyOf region kind isInlined finalizer env).run a = .ok ((), b)) :
    ⟨region, kind, env.scope, a.code.size, b.code.size⟩ ∈ b.copies := by
  have unfolded : (within (.finalizer region isInlined) finalizer env >>= fun _ =>
      noteCopy region kind env.scope a.code.size).run a = .ok ((), b) := run
  rw [StateT.run_bind] at unfolded
  cases inner : (within (.finalizer region isInlined) finalizer env).run a with
  | error failure =>
    rw [inner] at unfolded
    cases unfolded
  | ok result =>
    rw [inner] at unfolded
    cases unfolded
    simp

end AccScript
