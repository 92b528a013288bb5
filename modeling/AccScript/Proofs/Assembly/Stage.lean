import AccScript.Lower.Unit
import AccScript.Proofs.Assembly.Registers
import AccScript.Proofs.Assembly.Targets

/-!
# Stages of assembly

A `Stage` is what a piece of code holds at one moment: the temporaries it may write, the labels it
still has to place, the boundaries around it.  `Sound` says that the assembler is in order at a
stage, and `Grows` that code was only added at the end and left alone what it was told to.

A `Guard` fixes what does not change along the way.  Registers can be followed from any state at
all; labels, ranges and jumps only in a unit that has been watched from its start.
-/

namespace AccScript

variable {e : Emitted}

/-- What holds throughout a piece of code. -/
structure Guard where
  /-- Whether the unit has been watched from its start. -/
  watched : Prop
  /-- The first label of the unit. -/
  first : Nat := 0
  /-- Live temporaries that the code must not write. -/
  kept : List Register := []
  /-- Regions that must not protect the code. -/
  shut : List Nat := []

/-- What a piece of code holds at one moment. -/
structure Stage where
  /-- The live temporaries that the code may write, the last one first. -/
  temps : List Register := []
  /-- Labels that wait for their place, the last one first. -/
  labels : List Label := []
  /-- Labels that have their place. -/
  placed : List Label := []
  /-- Regions that exist. -/
  made : List Nat := []
  boundaries : List Boundary := []
  breakables : List JumpTarget := []
  continuables : List JumpTarget := []

/-- A jump to the label is safe. -/
def Stage.Knows (σ : Stage) (l : Label) : Prop :=
  l ∈ σ.labels ∨ l ∈ σ.placed

/-- The instructions of a copy are not protected by the region that it finalizes, and a copy that
closes an iterator does nothing else. -/
structure FinalizerCopy.Sound (c : FinalizerCopy) (code : Array Emitted) : Prop where
  le : c.start ≤ c.stop
  inside : c.stop ≤ code.size
  outside : ∀ (k : Nat) (e : Emitted), c.start ≤ k → k < c.stop → code[k]? = some e →
    .region c.region ∉ e.boundaries
  closes : ∀ r, c.kind = .closing r → c.stop = c.start + 1 ∧
    ∃ e : Emitted, code[c.start]? = some e ∧ e.instruction = .closeIterator r

/-- A statement leaves control as it found it. -/
def Visit.Restores (v : Visit) : Prop :=
  v.after = v.before

/-- What is known about a unit that has been watched from its start. -/
structure Watched (G : Guard) (σ : Stage) (opened : List Nat) (a : Assembler) : Prop where
  labels : Labelled G.first a.nextLabel σ.labels σ.placed a.code
  regions : Regional σ.labels opened σ.boundaries a.code a.regions
  operands : ∀ (k : Nat) (e : Emitted), a.code[k]? = some e →
    ∀ r ∈ e.instruction.registers, r.index < a.nextRegister
  copies : ∀ c ∈ a.copies, c.Sound a.code
  arrives : ∀ (k : Nat) (e : Emitted), a.code[k]? = some e → e.Arrives a.code a.copies k
  visits : ∀ v ∈ a.visits, v.Restores
  shut : ∀ i ∈ G.shut, i < a.regions.size ∧ .region i ∉ σ.boundaries
  made : ∀ i ∈ σ.made, i < a.regions.size

/-- The assembler is in order, with the given regions open. -/
structure SoundAt (G : Guard) (σ : Stage) (opened : List Nat) (a : Assembler) : Prop where
  boundaries : a.boundaries = σ.boundaries
  breakables : a.breakables = σ.breakables
  continuables : a.continuables = σ.continuables
  allocates : a.Allocates (σ.temps ++ G.kept)
  watches : G.watched → Watched G σ opened a

/-- The assembler is in order, and the regions among the boundaries are open. -/
abbrev Sound (G : Guard) (σ : Stage) (a : Assembler) : Prop :=
  SoundAt G σ (σ.boundaries.filterMap Boundary.region?) a

/-- The scopes that are open for the variable table, if there is one. -/
def Assembler.visible (a : Assembler) : Bool × List (ScopeId × Nat) :=
  (a.debugMode, a.openScopes)

/-- The part of an assembler that can only grow. -/
def Assembler.traces (a : Assembler) :=
  (a.code, a.copies, a.regions, a.visits, a.visible)

/-- Code was added at the end, and it leaves alone what the guard protects. -/
structure Grows (G : Guard) (a b : Assembler) : Prop where
  keeps : ∀ (k : Nat) (e : Emitted), a.code[k]? = some e → b.code[k]? = some e
  copies : ∀ c ∈ a.copies, c ∈ b.copies
  visits : ∀ v ∈ a.visits, v ∈ b.visits
  visible : b.visible = a.visible
  around : ∀ (i : Nat) (region : TryRegion), a.regions[i]? = some region →
    ∃ region' : TryRegion, b.regions[i]? = some region' ∧ region'.around = region.around
  writes : ∀ (k : Nat) (e : Emitted), a.code.size ≤ k → b.code[k]? = some e →
    ∀ r ∈ e.instruction.written, r ∉ G.kept
  shut : G.watched → ∀ (k : Nat) (e : Emitted), a.code.size ≤ k → b.code[k]? = some e →
    ∀ i ∈ G.shut, .region i ∉ e.boundaries

variable {G : Guard} {σ : Stage} {opened : List Nat} {a b c : Assembler}

/-! ## Growth -/

namespace Grows

theorem size_le (h : Grows G a b) : a.code.size ≤ b.code.size := by
  by_contra smaller
  have last : b.code.size < a.code.size := by omega
  have found := h.keeps b.code.size _ (Array.getElem?_eq_getElem last)
  exact absurd (Array.getElem?_eq_some_iff.mp found).1 (Nat.lt_irrefl _)

theorem regions_le (h : Grows G a b) : a.regions.size ≤ b.regions.size := by
  by_contra smaller
  have last : b.regions.size < a.regions.size := by omega
  obtain ⟨region, found, -⟩ := h.around _ _ (Array.getElem?_eq_getElem last)
  exact absurd (Array.getElem?_eq_some_iff.mp found).1 (Nat.lt_irrefl _)

theorem trans (first : Grows G a b) (second : Grows G b c) : Grows G a c where
  keeps k e found := second.keeps k e (first.keeps k e found)
  copies c mem := second.copies c (first.copies c mem)
  visits v mem := second.visits v (first.visits v mem)
  visible := second.visible.trans first.visible
  around i region found := by
    obtain ⟨region', found', same⟩ := first.around i region found
    obtain ⟨region'', found'', same'⟩ := second.around i region' found'
    exact ⟨region'', found'', same'.trans same⟩
  writes k e new found := by
    by_cases inside : k < b.code.size
    · have old := Array.getElem?_eq_getElem inside
      have same := second.keeps k _ old
      rw [found, Option.some.injEq] at same
      exact first.writes k e new (same ▸ old)
    · exact second.writes k e (by omega) found
  shut watched k e new found := by
    by_cases inside : k < b.code.size
    · have old := Array.getElem?_eq_getElem inside
      have same := second.keeps k _ old
      rw [found, Option.some.injEq] at same
      exact first.shut watched k e new (same ▸ old)
    · exact second.shut watched k e (by omega) found

theorem of_same_code (code : b.code = a.code) (copies : ∀ c ∈ a.copies, c ∈ b.copies)
    (around : ∀ (i : Nat) (region : TryRegion), a.regions[i]? = some region →
      ∃ region' : TryRegion, b.regions[i]? = some region' ∧ region'.around = region.around)
    (visible : b.visible = a.visible) (visits : ∀ v ∈ a.visits, v ∈ b.visits) : Grows G a b where
  keeps k e found := code ▸ found
  copies := copies
  visits := visits
  visible := visible
  around := around
  writes k e new found := by
    have inside := (Array.getElem?_eq_some_iff.mp found).1
    rw [code] at inside
    omega
  shut _ k e new found := by
    have inside := (Array.getElem?_eq_some_iff.mp found).1
    rw [code] at inside
    omega

theorem of_same (same : b.traces = a.traces) : Grows G a b := by
  simp only [Assembler.traces, Prod.mk.injEq] at same
  obtain ⟨code, copies, regions, visits, visible⟩ := same
  exact of_same_code code (fun _ mem => copies ▸ mem)
    (fun _ region found => ⟨region, regions ▸ found, rfl⟩) visible fun _ mem => visits ▸ mem

theorem refl (a : Assembler) : Grows G a a :=
  of_same rfl

theorem push (writes : ∀ r ∈ e.instruction.written, r ∉ G.kept)
    (shut : G.watched → ∀ i ∈ G.shut, .region i ∉ e.boundaries) (code : b.code = a.code.push e)
    (same : { b with code := a.code }.traces = a.traces) : Grows G a b where
  keeps k e' found := code ▸ getElem?_push_of_some found e
  copies c mem := (congrArg (·.2.1) same : b.copies = a.copies) ▸ mem
  visits v mem := (congrArg (·.2.2.2.1) same : b.visits = a.visits) ▸ mem
  visible := congrArg (·.2.2.2.2) same
  around i region found := ⟨region, (congrArg (·.2.2.1) same : b.regions = a.regions) ▸ found, rfl⟩
  writes k e' new found := by
    rw [code] at found
    rcases getElem?_push_cases found with old | ⟨-, rfl⟩
    · have inside := (Array.getElem?_eq_some_iff.mp old).1
      omega
    · exact writes
  shut watched k e' new found := by
    rw [code] at found
    rcases getElem?_push_cases found with old | ⟨-, rfl⟩
    · have inside := (Array.getElem?_eq_some_iff.mp old).1
      omega
    · exact shut watched

end Grows

/-! ## What a stage depends on -/

/-- The part of an assembler that stages speak of. -/
structure Core where
  code : Array Emitted
  regions : Array TryRegion
  copies : Array FinalizerCopy
  visits : Array Visit
  nextLabel : Nat
  registers : RegisterState
  liveTemps : Nat
  moments : List RegisterState
  boundaries : List Boundary
  breakables : List JumpTarget
  continuables : List JumpTarget

def Assembler.core (a : Assembler) : Core :=
  ⟨a.code, a.regions, a.copies, a.visits, a.nextLabel, a.registers, a.liveTemps, a.moments, a.boundaries,
    a.breakables, a.continuables⟩

theorem FinalizerCopy.Sound.push
    {c : FinalizerCopy} {code : Array Emitted} (h : c.Sound code) (e : Emitted) :
    c.Sound (code.push e) where
  le := h.le
  inside := Nat.le_trans h.inside (by simp)
  outside k e' after before found := by
    have inside := h.inside
    rcases getElem?_push_cases found with old | ⟨rfl, -⟩
    · exact h.outside k e' after before old
    · omega
  closes r kind := by
    obtain ⟨one, e', found, same⟩ := h.closes r kind
    exact ⟨one, e', getElem?_push_of_some found e, same⟩

namespace SoundAt

theorem reallocate
    (h : SoundAt G σ opened a) {temps : List Register} (allocates : b.Allocates (temps ++ G.kept))
    (next : a.nextRegister ≤ b.nextRegister)
    (same : { b.core with
      registers := a.registers, liveTemps := a.liveTemps, moments := a.moments } = a.core) :
    SoundAt G { σ with temps } opened b := by
  simp only [Assembler.core, Core.mk.injEq, true_and] at same
  obtain ⟨code, regions, copies, visits, nextLabel, boundaries, breakables, continuables⟩ := same
  refine ⟨boundaries.trans h.boundaries, breakables.trans h.breakables,
    continuables.trans h.continuables, allocates, fun watched => ?_⟩
  have w := h.watches watched
  refine ⟨?_, ?_, ?_, ?_, ?_, ?_, ?_, ?_⟩
  · rw [code, nextLabel]
    exact w.labels
  · rw [code, regions]
    exact w.regions
  · rw [code]
    exact fun k e found r mem => Nat.lt_of_lt_of_le (w.operands k e found r mem) next
  · rw [code, copies]
    exact w.copies
  · rw [code, copies]
    exact w.arrives
  · rw [visits]
    exact w.visits
  · rw [regions]
    exact w.shut
  · rw [regions]
    exact w.made

/-- Steps that touch nothing that stages speak of. -/
theorem congr (h : SoundAt G σ opened a) (same : b.core = a.core) : SoundAt G σ opened b := by
  have registers : b.registers = a.registers := congrArg Core.registers same
  refine h.reallocate (h.allocates.congr registers (congrArg Core.liveTemps same)
    (congrArg Core.moments same)) (Nat.le_of_eq (congrArg RegisterState.next registers).symm) ?_
  rw [same]
  rfl

theorem push (h : Sound G σ a) (plain : e.instruction.isLabel = false)
    (around : e.boundaries = σ.boundaries)
    (operands : G.watched → ∀ r ∈ e.instruction.registers, r.index < a.nextRegister)
    (target : G.watched → ∀ l, e.instruction.target? = some l → σ.Knows l)
    (arrives : G.watched → e.Arrives (a.code.push e) a.copies a.code.size) :
    Sound G σ { a with code := a.code.push e } := by
  refine ⟨h.boundaries, h.breakables, h.continuables, h.allocates.congr rfl rfl rfl,
    fun watched => ?_⟩
  have w := h.watches watched
  have keeps := fun (k : Nat) (e' : Emitted) (found : a.code[k]? = some e') =>
    getElem?_push_of_some found e
  have labels : Labelled G.first a.nextLabel σ.labels σ.placed (a.code.push e) := by
    refine w.labels.push plain fun l same => ?_
    exact (target watched l same).imp id (w.labels.placed l)
  refine ⟨labels, ?_, ?_, fun c mem => (w.copies c mem).push e, ?_, w.visits, w.shut, w.made⟩
  · refine w.regions.push labels.unique (fun l expected => expected.push e) around fun _ i => ?_
    rw [List.mem_filterMap]
    constructor
    · rintro ⟨b, mem, same⟩
      cases b <;> cases same
      exact mem
    · exact fun mem => ⟨.region i, mem, rfl⟩
  · intro k e' found
    rcases getElem?_push_cases found with old | ⟨-, rfl⟩
    · exact w.operands k e' old
    · exact operands watched
  · intro k e' found
    rcases getElem?_push_cases found with old | ⟨rfl, rfl⟩
    · exact (w.arrives k e' old).mono (keepsInstructions keeps) (fun _ mem => mem) rfl rfl
    · exact arrives watched

theorem place (h : SoundAt G σ opened a) {l : Label} (label : e.instruction = .label l)
    (around : e.boundaries = σ.boundaries) (unsited : e.site = none) {rest : List Label}
    (split : σ.labels.Perm (l :: rest)) {placed : List Label}
    (known : ∀ l' ∈ placed, l' = l ∨ l' ∈ σ.placed) :
    SoundAt G { σ with labels := rest, placed } opened { a with code := a.code.push e } := by
  refine ⟨h.boundaries, h.breakables, h.continuables, h.allocates.congr rfl rfl rfl,
    fun watched => ?_⟩
  have w := h.watches watched
  have keeps := fun (k : Nat) (e' : Emitted) (found : a.code[k]? = some e') =>
    getElem?_push_of_some found e
  have labels := w.labels.place split label
  refine ⟨labels.know ?_, ?_, ?_, fun c mem => (w.copies c mem).push e, ?_, w.visits, w.shut, w.made⟩
  · intro l' mem
    rcases known l' mem with rfl | old
    · exact ⟨_, labelAt_push_self label⟩
    · exact labels.placed l' old
  · refine w.regions.push labels.unique ?_ around fun plain => ?_
    · rintro l' (waits | ⟨i, there⟩)
      · rcases List.mem_cons.mp (split.mem_iff.mp waits) with rfl | waits
        · exact .inr ⟨_, labelAt_push_self label⟩
        · exact .inl waits
      · exact .inr ⟨i, there.push e⟩
    · simp [label, Instruction.isLabel] at plain
  · intro k e' found
    rcases getElem?_push_cases found with old | ⟨-, rfl⟩
    · exact w.operands k e' old
    · simp [label, Instruction.registers, Instruction.operands, Operand.register?]
  · intro k e' found
    rcases getElem?_push_cases found with old | ⟨rfl, rfl⟩
    · exact (w.arrives k e' old).mono (keepsInstructions keeps) (fun _ mem => mem) rfl rfl
    · exact .of_unsited unsited

theorem fresh (h : SoundAt G σ opened a) :
    SoundAt G { σ with labels := ⟨a.nextLabel⟩ :: σ.labels } opened
      { a with nextLabel := a.nextLabel + 1 } :=
  ⟨h.boundaries, h.breakables, h.continuables, h.allocates.congr rfl rfl rfl, fun watched =>
    have w := h.watches watched
    ⟨w.labels.fresh, w.regions.expect (List.subset_cons_self _ _), w.operands, w.copies,
      w.arrives, w.visits, w.shut, w.made⟩⟩

theorem skipLabel (h : SoundAt G σ opened a) :
    SoundAt G σ opened { a with nextLabel := a.nextLabel + 1 } :=
  ⟨h.boundaries, h.breakables, h.continuables, h.allocates.congr rfl rfl rfl, fun watched =>
    have w := h.watches watched
    ⟨w.labels.skip, w.regions, w.operands, w.copies, w.arrives, w.visits, w.shut, w.made⟩⟩

theorem forget
    (h : SoundAt G σ opened a) {placed : List Label} (fewer : placed ⊆ σ.placed) {made : List Nat}
    (fewer' : made ⊆ σ.made) : SoundAt G { σ with placed, made } opened a :=
  ⟨h.boundaries, h.breakables, h.continuables, h.allocates, fun watched =>
    have w := h.watches watched
    ⟨w.labels.know fun l mem => w.labels.placed l (fewer mem), w.regions, w.operands, w.copies,
      w.arrives, w.visits, w.shut, fun i mem => w.made i (fewer' mem)⟩⟩

end SoundAt

end AccScript
