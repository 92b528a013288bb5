import AccScript.Proofs.Lowering.Expression

/-!
# Boundaries and protected ranges

How the steps that open and close boundaries, jump targets and protected ranges move between
frames.  Closing a range and opening it again are plain, because the depth of a region is that of
the begin of its first range, which never changes.
-/

namespace AccScript

open Asm Lower

variable {α β : Type} {S : Setting} {env : Env} {ls : List Label} {Γ : Frame} {n k : Nat}
  {a : Assembler} {region : TryRegion} {i : Nat}

/-- The number of environments that the unit has pushed inside of some boundaries. -/
def Setting.depth (S : Setting) (boundaries : List Boundary) : Nat :=
  S.base + (boundaries.filterMap Boundary.loop?).length

theorem Spec.fresh {m : Nat} (k : Nat) {f : Label → Lower β} (h : ∀ l, Γ.depths.label l = none →
      Spec S (Held S (Γ.setLabel l k) n) (f l env) (fun _ => Held S (Γ.setLabel l k) m)) :
    Spec S (Held S Γ n) ((liftM freshLabel >>= f) env) (fun _ => Held S Γ m) :=
  spec_fresh k fun l unknown => (h l unknown).weaken (fun _ held => held) fun _ _ held =>
    held.forget (Depths.le_setLabel unknown k) (List.Subset.refl _) rfl

theorem spec_label {l : Label} (known : Γ.depths.label l = some n) :
    Spec S (Held S Γ n) (label l) (fun _ => Held S Γ n) :=
  spec_emit rfl (fun _ _ => known) (.inr rfl) fun _ => trivial

/-- Behind a jump any depth can be assumed. -/
theorem spec_branch {l : Label} (known : Γ.depths.label l = some n) (m : Nat) :
    Spec S (Held S Γ n) (branch l) (fun _ => Held S Γ m) :=
  spec_emit rfl (fun _ _ => known) (.inl rfl) fun _ => trivial

/-! ## Boundaries -/

namespace Frame

def push (Γ : Frame) (boundary : Boundary) : Frame :=
  { Γ with boundaries := boundary :: Γ.boundaries }

/-- Inside of a statement that `break` leaves. -/
def openBreak (Γ : Frame) (target : Label) (names : List String) (acceptsUnlabelled : Bool) :
    Frame :=
  { Γ with
    breakables := ⟨target, names, acceptsUnlabelled, Γ.boundaries.length⟩ :: Γ.breakables
    boundaries := .breakTarget :: Γ.boundaries }

/-- Inside of a statement that `continue` leaves. -/
def openContinue (Γ : Frame) (target : Label) (names : List String) : Frame :=
  { Γ with
    continuables := ⟨target, names, true, Γ.boundaries.length⟩ :: Γ.continuables
    boundaries := .continueTarget :: Γ.boundaries }

/-- Inside of a protected range at a depth. -/
def openRegion (Γ : Frame) (i k : Nat) : Frame :=
  { Γ with
    boundaries := .region i :: Γ.boundaries
    opened := i :: Γ.opened
    depths := Γ.depths.setRegion i k }

/-- Outside of some boundaries. -/
def within (Γ : Frame) (rest : List Boundary) : Frame :=
  { Γ with boundaries := rest }

end Frame

theorem spec_startBoundary (boundary : Boundary) :
    Spec S (Held S Γ n) (startBoundary boundary) (fun _ => Held S (Γ.push boundary) n) := by
  refine ⟨fun a h => ?_⟩
  exact h.rebound rfl (congrArg (boundary :: ·) h.boundaries) h.breakables h.continuables rfl

theorem spec_endBoundary (boundary : Boundary) :
    Spec S (Held S (Γ.push boundary) n) (endBoundary boundary) (fun _ => Held S Γ n) := by
  refine ⟨fun a h => ?_⟩
  rw [run_endBoundary h.boundaries]
  exact h.rebound rfl rfl h.breakables h.continuables rfl

theorem spec_beginBreakable (target : Label) (names : List String) (acceptsUnlabelled : Bool) :
    Spec S (Held S Γ n) (beginBreakable target names acceptsUnlabelled)
      (fun _ => Held S (Γ.openBreak target names acceptsUnlabelled) n) := by
  refine ⟨fun a h => ?_⟩
  have breakables : (⟨target, names, acceptsUnlabelled, a.boundaries.length⟩ : JumpTarget) ::
      a.breakables = (Γ.openBreak target names acceptsUnlabelled).breakables := by
    rw [h.boundaries, h.breakables]
    rfl
  exact h.rebound rfl (congrArg (.breakTarget :: ·) h.boundaries) breakables h.continuables rfl

theorem spec_endBreakable {target : Label} {names : List String} {acceptsUnlabelled : Bool} :
    Spec S (Held S (Γ.openBreak target names acceptsUnlabelled) n) endBreakable
      (fun _ => Held S Γ n) := by
  have leaves := spec_endBoundary (S := S) (n := n)
    (Γ := (Γ.openBreak target names acceptsUnlabelled).within Γ.boundaries) .breakTarget
  refine leaves.then <| ⟨fun a h => ?_⟩
  exact h.rebound rfl h.boundaries (congrArg List.tail h.breakables) h.continuables rfl

theorem spec_beginContinuable (target : Label) (names : List String) :
    Spec S (Held S Γ n) (beginContinuable target names)
      (fun _ => Held S (Γ.openContinue target names) n) := by
  refine ⟨fun a h => ?_⟩
  have continuables : (⟨target, names, true, a.boundaries.length⟩ : JumpTarget) ::
      a.continuables = (Γ.openContinue target names).continuables := by
    rw [h.boundaries, h.continuables]
    rfl
  exact h.rebound rfl (congrArg (.continueTarget :: ·) h.boundaries) h.breakables continuables rfl

theorem spec_endContinuable {target : Label} {names : List String} :
    Spec S (Held S (Γ.openContinue target names) n) endContinuable (fun _ => Held S Γ n) := by
  have leaves := spec_endBoundary (S := S) (n := n)
    (Γ := (Γ.openContinue target names).within Γ.boundaries) .continueTarget
  refine leaves.then <| ⟨fun a h => ?_⟩
  exact h.rebound rfl h.boundaries h.breakables (congrArg List.tail h.continuables) rfl

/-! ## Protected ranges -/

theorem RegionFits.le {δ ε : Depths} (le : δ.Le ε) {opened : List Nat}
    (h : RegionFits δ opened i region) : RegionFits ε opened i region := by
  obtain ⟨⟨k, start, depth, handler, begin, hk⟩, closed⟩ := h
  exact ⟨⟨k, start, le.region i k depth, le.label _ k handler, begin, le.label start k hk⟩, closed⟩

theorem Held.pushRegion {start handler : Label} (h : Held S Γ n a)
    (starts : Γ.depths.label start = some n) (handles : Γ.depths.label handler = some n) :
    Γ.depths.region a.regions.size = none ∧
      Held S (Γ.openRegion a.regions.size n) n { a with
        regions := a.regions.push { handler, opened := some start, around := a.boundaries }
        boundaries := .region a.regions.size :: a.boundaries } := by
  obtain ⟨δ, d, assigned⟩ := h.assigns
  have free : δ.region a.regions.size = none := by
    refine Option.eq_none_iff_forall_ne_some.mpr fun k known => ?_
    exact Nat.lt_irrefl _ (assigned.regions _ k known)
  have unknown : Γ.depths.region a.regions.size = none := by
    refine Option.eq_none_iff_forall_ne_some.mpr fun k known => ?_
    rw [assigned.le.region _ k known] at free
    cases free
  have wider := Depths.le_setRegion free n
  refine ⟨unknown, congrArg (_ :: ·) h.boundaries, h.breakables, h.continuables,
    ⟨δ.setRegion a.regions.size n, d, ?_⟩, h.sites, { h.linked with }⟩
  constructor
  · exact Depths.setRegion_mono assigned.le _ n
  · exact assigned.labels
  · intro i k known
    rw [Array.size_push]
    by_cases same : i = a.regions.size
    · omega
    · have old : δ.region i = some k := by simpa [Depths.setRegion, same] using known
      exact Nat.lt_succ_of_lt (assigned.regions i k old)
  · exact assigned.graded.mono wider
  · exact assigned.depth
  · intro i region found
    rw [Array.getElem?_push] at found
    split at found
    · rename_i same
      subst same
      cases found
      refine ⟨⟨n, start, Depths.setRegion_region_self _ _ _, ?_, rfl, ?_⟩, fun _ =>
        List.mem_cons_self⟩
      · exact wider.label handler n (assigned.le.label handler n handles)
      · exact wider.label start n (assigned.le.label start n starts)
    · exact ((assigned.tables i region found).le wider).mono (List.subset_cons_self _ _)

theorem Held.placeLabel (h : Held S Γ n a) : Γ.depths.label ⟨a.nextLabel⟩ = none ∧
      Held S (Γ.setLabel ⟨a.nextLabel⟩ n) n { a with
        nextLabel := a.nextLabel + 1
        code := a.code.push ⟨.label ⟨a.nextLabel⟩, a.origin, a.placement none⟩ } := by
  have unknown : Γ.depths.label ⟨a.nextLabel⟩ = none := by
    refine Option.eq_none_iff_forall_ne_some.mpr fun k known => ?_
    exact Nat.lt_irrefl _ (h.label_lt known)
  refine ⟨unknown, (h.setLabel n).push (fun _ => ?_) (.inr rfl) (fun _ => trivial)
    fun _ => Tables.links_of_none rfl⟩
  exact Depths.setLabel_label_self _ _ _

theorem Held.markPlace (h : Held S Γ n a) : Held S Γ n { a with
      nextLabel := a.nextLabel + 1
      code := a.code.push ⟨.label ⟨a.nextLabel⟩, a.origin, a.placement none⟩ } := by
  obtain ⟨unknown, placed⟩ := h.placeLabel
  exact placed.forget (Depths.le_setLabel unknown n) (List.Subset.refl _) rfl

theorem spec_beginTry {handler : Label} (handles : Γ.depths.label handler = some n) :
    Spec S (Held S Γ n) (beginTry handler) (fun i a =>
      Γ.depths.region i = none ∧ Held S (Γ.openRegion i n) n a) := by
  refine ⟨fun a h => ?_⟩
  obtain ⟨unknown, placed⟩ := h.placeLabel
  have wider := Depths.le_setLabel unknown n
  obtain ⟨new, held⟩ := placed.pushRegion (Depths.setLabel_label_self _ _ _)
    (wider.label handler n handles)
  exact ⟨new, held.forget (Depths.setRegion_mono wider _ n) (List.Subset.refl _) rfl⟩

theorem Held.modifyRegion (h : Held S Γ n a)
    (found : a.regions[i]? = some region) {f : TryRegion → TryRegion}
    (handler : (f region).handler = region.handler) (begin : (f region).begin? = region.begin?)
    (ranges : (f region).ranges ≠ []) : Held S Γ n { a with regions := a.regions.modify i f } := by
  obtain ⟨δ, d, assigned⟩ := h.assigns
  refine ⟨h.boundaries, h.breakables, h.continuables, ⟨δ, d, ?_⟩, h.sites, { h.linked with }⟩
  constructor
  · exact assigned.le
  · exact assigned.labels
  · intro j k known
    rw [Array.size_modify]
    exact assigned.regions j k known
  · exact assigned.graded
  · exact assigned.depth
  · intro j other located
    rw [Array.getElem?_modify] at located
    by_cases same : i = j
    · subst same
      rw [if_pos rfl, found, Option.map_some, Option.some.injEq] at located
      subst located
      obtain ⟨⟨k, start, depth, handles, begins, hk⟩, -⟩ := assigned.tables i region found
      exact ⟨⟨k, start, depth, handler ▸ handles, begin ▸ begins, hk⟩, fun empty =>
        absurd empty ranges⟩
    · rw [if_neg same] at located
      exact assigned.tables j other located

theorem Held.ranges_ne_nil (h : Held S Γ n a)
    (found : a.regions[i]? = some region) (closed : region.opened = none) :
    region.ranges ≠ [] := by
  obtain ⟨δ, d, assigned⟩ := h.assigns
  obtain ⟨⟨k, start, -, -, begins, -⟩, -⟩ := assigned.tables i region found
  intro empty
  simp [TryRegion.begin?, empty, closed] at begins

theorem Held.closeRegion (h : Held S Γ n a)
    (ranges : ∀ region, a.regions[i]? = some region → region.ranges ≠ []) :
    Held S { Γ with opened := Γ.opened.filter (· ≠ i) } n a := by
  obtain ⟨δ, d, assigned⟩ := h.assigns
  refine ⟨h.boundaries, h.breakables, h.continuables, ⟨δ, d, ?_⟩, h.sites, { h.linked with }⟩
  refine ⟨assigned.le, assigned.labels, assigned.regions, assigned.graded, assigned.depth, ?_⟩
  intro j region located
  obtain ⟨depth, closed⟩ := assigned.tables j region located
  refine ⟨depth, fun empty => List.mem_filter.mpr ⟨closed empty, ?_⟩⟩
  have different : j ≠ i := by
    rintro rfl
    exact ranges region located empty
  simpa using different

/-- After its range is closed, a region has a range. -/
theorem spec_closeTry (i : Nat) : Spec S (Held S Γ n) (closeTry i)
      (fun _ => Held S { Γ with opened := Γ.opened.filter (· ≠ i) } n) := by
  refine .get fun a h => ?_
  cases found : a.regions[i]? with
  | none => exact .throw (Setting.tolerates_of_tolerable .broken)
  | some region =>
    cases opened : region.opened with
    | none =>
      simp only [opened]
      refine .pure fun b same => ?_
      subst same
      refine h.closeRegion fun other located => ?_
      rw [found, Option.some.injEq] at located
      exact located ▸ h.ranges_ne_nil found opened
    | some start =>
      simp only [opened]
      refine ⟨fun b same => ?_⟩
      subst same
      have ranges : region.ranges ++ [(start, ⟨b.nextLabel⟩)] ≠ [] := by simp
      have begin : TryRegion.begin?
          { region with ranges := region.ranges ++ [(start, ⟨b.nextLabel⟩)], opened := none } =
            region.begin? := by
        cases listed : region.ranges <;> simp [TryRegion.begin?, listed, opened]
      have changed := h.markPlace.modifyRegion found
        (f := fun r => { r with ranges := r.ranges ++ [(start, ⟨b.nextLabel⟩)], opened := none })
        rfl begin ranges
      refine changed.closeRegion fun other located => ?_
      rw [Array.getElem?_modify, if_pos rfl] at located
      obtain ⟨old, -, rfl⟩ := Option.map_eq_some_iff.mp located
      simp

theorem plain_closeTry (i : Nat) : Plain S ls (closeTry i) := by
  intro Γ n _
  refine (spec_closeTry i).weaken (fun _ h => h) fun _ _ h => ?_
  exact h.forget (.refl _) (fun _ mem => (List.mem_filter.mp mem).1) rfl

theorem plain_resumeTry (i : Nat) : Plain S ls (resumeTry i) := by
  intro Γ n _
  refine .get fun a h => ?_
  cases found : a.regions[i]? with
  | none => exact .throw (Setting.tolerates_of_tolerable .broken)
  | some region =>
    cases opened : region.opened with
    | some start =>
      simp only [opened]
      exact .pure fun b same => same ▸ h
    | none =>
      simp only [opened]
      refine ⟨fun b same => ?_⟩
      subst same
      have ranges := h.ranges_ne_nil found opened
      have begin : TryRegion.begin? { region with opened := some ⟨b.nextLabel⟩ } =
          region.begin? := by
        cases listed : region.ranges with
        | nil => exact absurd listed ranges
        | cons range rest => simp [TryRegion.begin?, listed]
      exact h.markPlace.modifyRegion found (f := fun r => { r with opened := some ⟨b.nextLabel⟩ })
        rfl begin ranges

theorem spec_endTry (new : Γ.depths.region i = none) :
    Spec S (Held S (Γ.openRegion i k) n) (endTry i) (fun _ => Held S Γ n) := by
  have leaves : Spec S (Held S (Γ.openRegion i k) n) (endBoundary (.region i))
      (fun _ => Held S ((Γ.openRegion i k).within Γ.boundaries) n) := by
    refine ⟨fun a h => ?_⟩
    rw [run_endBoundary h.boundaries]
    exact h.rebound rfl rfl h.breakables h.continuables rfl
  refine leaves.then <| (spec_closeTry i).weaken (fun _ h => h) fun _ a h => ?_
  refine h.forget (Depths.le_setRegion new k) ?_ rfl
  intro j mem
  obtain ⟨inside, different⟩ := List.mem_filter.mp mem
  rcases List.mem_cons.mp inside with rfl | inside
  · simp at different
  · exact inside

end AccScript
