import AccScript.Assembler.Control

/-!
# Labels and protected ranges

A label is first made and later placed, once; in between it is *pending*.  A protected range lies
between two placed labels, and a region that is open protects everything behind the label it was
opened with.

`Labelled` and `Regional` say what holds of labels and regions at one moment.  An instruction is
protected by the regions that were around it when it was emitted, and by no others.
-/

namespace AccScript

variable {code code' : Array Emitted} {first next : Nat} {pending pending' placed : List Label}
  {l : Label} {new : Emitted} {k : Nat} {last : Nat} {region : TryRegion} {i : Nat}

/-! ## Places of labels -/

/-- A label stands at a place. -/
def LabelAt (code : Array Emitted) (l : Label) (k : Nat) : Prop :=
  ∃ e, code[k]? = some e ∧ e.instruction = .label l

def Expected (pending : List Label) (code : Array Emitted) (l : Label) : Prop :=
  l ∈ pending ∨ ∃ k, LabelAt code l k

theorem LabelAt.lt_size (h : LabelAt code l k) : k < code.size := by
  obtain ⟨e, found, -⟩ := h
  exact (Array.getElem?_eq_some_iff.mp found).1

theorem getElem?_push_of_some
    {α : Type} {items : Array α} {x : α} (found : items[k]? = some x) (new : α) :
    (items.push new)[k]? = some x := by
  have inside : k < items.size := (Array.getElem?_eq_some_iff.mp found).1
  rw [Array.getElem?_push, if_neg (by omega)]
  exact found

/-- What is behind the last instruction but one was there before. -/
theorem getElem?_push_cases {e new : Emitted} (found : (code.push new)[k]? = some e) :
    code[k]? = some e ∨ k = code.size ∧ e = new := by
  rw [Array.getElem?_push] at found
  split at found
  · cases found
    exact .inr ⟨by assumption, rfl⟩
  · exact .inl found

theorem LabelAt.push (h : LabelAt code l k) (new : Emitted) : LabelAt (code.push new) l k := by
  obtain ⟨e, found, label⟩ := h
  exact ⟨e, getElem?_push_of_some found new, label⟩

theorem labelAt_push_cases (h : LabelAt (code.push new) l k) :
    LabelAt code l k ∨ k = code.size ∧ new.instruction = .label l := by
  obtain ⟨e, found, label⟩ := h
  rcases getElem?_push_cases found with old | ⟨rfl, rfl⟩
  · exact .inl ⟨e, old, label⟩
  · exact .inr ⟨rfl, label⟩

theorem labelAt_push_self (h : new.instruction = .label l) : LabelAt (code.push new) l code.size :=
  ⟨new, by simp, h⟩

theorem Expected.push (h : Expected pending code l) (new : Emitted) :
    Expected pending (code.push new) l :=
  h.imp id fun ⟨k, placed⟩ => ⟨k, placed.push new⟩

/-! ## Labels -/

/-- The labels of a unit: its own are those from `first` on, and the next to be made is `next`. -/
structure Labelled (first next : Nat) (pending placed : List Label) (code : Array Emitted) :
    Prop where
  start : first ≤ next
  unique : ∀ {l i j}, LabelAt code l i → LabelAt code l j → i = j
  own : ∀ {l i}, LabelAt code l i → first ≤ l.index ∧ l.index < next
  made : ∀ l ∈ pending, first ≤ l.index ∧ l.index < next
  waiting : ∀ l ∈ pending, ∀ i, ¬LabelAt code l i
  nodup : pending.Nodup
  placed : ∀ l ∈ placed, ∃ i, LabelAt code l i
  targets : ∀ (i : Nat) (e : Emitted) l, code[i]? = some e → e.instruction.target? = some l → Expected pending code l

namespace Labelled

theorem fresh (h : Labelled first next pending placed code) :
    Labelled first (next + 1) (⟨next⟩ :: pending) placed code where
  start := Nat.le_succ_of_le h.start
  unique := h.unique
  own label := ⟨(h.own label).1, Nat.lt_succ_of_lt (h.own label).2⟩
  made := by
    refine List.forall_mem_cons.mpr ⟨⟨h.start, Nat.lt_succ_self next⟩, fun l mem => ?_⟩
    exact ⟨(h.made l mem).1, Nat.lt_succ_of_lt (h.made l mem).2⟩
  waiting := by
    refine List.forall_mem_cons.mpr ⟨fun i label => ?_, h.waiting⟩
    exact Nat.lt_irrefl _ (h.own label).2
  nodup := List.nodup_cons.mpr ⟨fun mem => Nat.lt_irrefl _ (h.made _ mem).2, h.nodup⟩
  placed := h.placed
  targets i e l found target := (h.targets i e l found target).imp (List.mem_cons_of_mem _) id

theorem skip (h : Labelled first next pending placed code) :
    Labelled first (next + 1) pending placed code where
  start := Nat.le_succ_of_le h.start
  unique := h.unique
  own label := ⟨(h.own label).1, Nat.lt_succ_of_lt (h.own label).2⟩
  made l mem := ⟨(h.made l mem).1, Nat.lt_succ_of_lt (h.made l mem).2⟩
  waiting := h.waiting
  nodup := h.nodup
  placed := h.placed
  targets := h.targets

theorem push (h : Labelled first next pending placed code) (plain : new.instruction.isLabel = false)
    (target : ∀ l, new.instruction.target? = some l → Expected pending code l) :
    Labelled first next pending placed (code.push new) := by
  have old : ∀ {l i}, LabelAt (code.push new) l i → LabelAt code l i := by
    intro l i label
    rcases labelAt_push_cases label with old | ⟨-, same⟩
    · exact old
    · simp [same, Instruction.isLabel] at plain
  refine ⟨h.start, ?_, ?_, h.made, ?_, h.nodup, ?_, ?_⟩
  · exact fun hi hj => h.unique (old hi) (old hj)
  · exact fun label => h.own (old label)
  · exact fun l mem i label => h.waiting l mem i (old label)
  · intro l mem
    obtain ⟨i, label⟩ := h.placed l mem
    exact ⟨i, label.push new⟩
  · intro i e l found same
    rcases getElem?_push_cases found with found | ⟨-, rfl⟩
    · exact (h.targets i e l found same).push new
    · exact (target l same).push e

theorem place (h : Labelled first next pending placed code) {rest : List Label}
    (split : pending.Perm (l :: rest)) (label : new.instruction = .label l) :
    Labelled first next rest placed (code.push new) := by
  have distinct : (l :: rest).Nodup := split.nodup_iff.mp h.nodup
  have mem : l ∈ pending := split.mem_iff.mpr (.head _)
  have others : ∀ l' ∈ rest, l' ∈ pending := fun l' inside =>
    split.mem_iff.mpr (List.mem_cons_of_mem l inside)
  have expected : ∀ l', Expected pending code l' → Expected rest (code.push new) l' := by
    rintro l' (waits | ⟨i, there⟩)
    · rcases List.mem_cons.mp (split.mem_iff.mp waits) with rfl | waits
      · exact .inr ⟨_, labelAt_push_self label⟩
      · exact .inl waits
    · exact .inr ⟨i, there.push new⟩
  refine ⟨h.start, ?_, ?_, fun l' inside => h.made l' (others l' inside), ?_,
    (List.nodup_cons.mp distinct).2, ?_, ?_⟩
  · intro l' i j hi hj
    rcases labelAt_push_cases hi with hi | ⟨rfl, same⟩
    · rcases labelAt_push_cases hj with hj | ⟨rfl, same⟩
      · exact h.unique hi hj
      · obtain rfl : l = l' := by simpa [label] using same
        exact absurd hi (h.waiting l mem i)
    · obtain rfl : l = l' := by simpa [label] using same
      rcases labelAt_push_cases hj with hj | ⟨rfl, -⟩
      · exact absurd hj (h.waiting l mem j)
      · rfl
  · intro l' i there
    rcases labelAt_push_cases there with there | ⟨-, same⟩
    · exact h.own there
    · obtain rfl : l = l' := by simpa [label] using same
      exact h.made l mem
  · intro l' inside i there
    rcases labelAt_push_cases there with there | ⟨-, same⟩
    · exact h.waiting l' (others l' inside) i there
    · obtain rfl : l = l' := by simpa [label] using same
      exact (List.nodup_cons.mp distinct).1 inside
  · intro l' inside
    obtain ⟨i, there⟩ := h.placed l' inside
    exact ⟨i, there.push new⟩
  · intro i e l' found target
    rcases getElem?_push_cases found with found | ⟨-, rfl⟩
    · exact expected l' (h.targets i e l' found target)
    · simp [label, Instruction.target?] at target

theorem know (h : Labelled first next pending placed code) {placed' : List Label}
    (known : ∀ l ∈ placed', ∃ i, LabelAt code l i) : Labelled first next pending placed' code :=
  { h with placed := known }

end Labelled

/-! ## Protected instructions -/

def TryRegion.Protects (region : TryRegion) (code : Array Emitted) (k : Nat) : Prop :=
  (∃ range ∈ region.ranges, ∃ i j, LabelAt code range.1 i ∧ LabelAt code range.2 j ∧ i < k ∧
    k < j) ∨
  ∃ start i, region.opened = some start ∧ LabelAt code start i ∧ i < k

/-- The labels of a region are in order, and it is open if it is in the list. -/
structure TryRegion.Sound (region : TryRegion) (pending : List Label) (code : Array Emitted)
    (isOpen : Prop) : Prop where
  handler : Expected pending code region.handler
  ranges : ∀ range ∈ region.ranges, ∃ i j, LabelAt code range.1 i ∧ LabelAt code range.2 j ∧ i < j
  start : ∀ l, region.opened = some l → ∃ i, LabelAt code l i
  isOpen : region.opened.isSome = true ↔ isOpen
  table : region.ranges ≠ [] ∨ region.opened.isSome = true

/-- The boundaries around each region are those that it was opened in. -/
def Nests (regions : Array TryRegion) (boundaries : List Boundary) : Prop :=
  ∀ i rest, .region i :: rest <:+ boundaries →
    ∃ region, regions[i]? = some region ∧ region.around = rest

/-- The regions of a unit, of which those in `opened` are open. -/
structure Regional (pending : List Label) (opened : List Nat) (boundaries : List Boundary)
    (code : Array Emitted) (regions : Array TryRegion) : Prop where
  sound : ∀ (i : Nat) (region : TryRegion), regions[i]? = some region → region.Sound pending code (i ∈ opened)
  covers : ∀ (k : Nat) (e : Emitted) (i : Nat) (region : TryRegion), code[k]? = some e →
    e.instruction.isLabel = false → regions[i]? = some region → (region.Protects code k ↔ .region i ∈ e.boundaries)
  nests : ∀ (k : Nat) (e : Emitted), code[k]? = some e → Nests regions e.boundaries
  current : Nests regions boundaries

theorem mem_region_iff {boundaries : List Boundary} {b : Boundary} :
    b ∈ boundaries ↔ ∃ rest, b :: rest <:+ boundaries := by
  constructor
  · intro mem
    obtain ⟨left, rest, rfl⟩ := List.append_of_mem mem
    exact ⟨rest, List.suffix_append left _⟩
  · rintro ⟨rest, suffix⟩
    exact suffix.subset (.head _)

namespace Nests

variable {regions : Array TryRegion} {boundaries : List Boundary}

theorem lt_size (h : Nests regions boundaries) (mem : .region i ∈ boundaries) :
    i < regions.size := by
  obtain ⟨rest, suffix⟩ := mem_region_iff.mp mem
  obtain ⟨region, found, -⟩ := h i rest suffix
  exact (Array.getElem?_eq_some_iff.mp found).1

theorem of_suffix (h : Nests regions boundaries) {rest : List Boundary}
    (suffix : rest <:+ boundaries) : Nests regions rest :=
  fun i outer inside => h i outer (inside.trans suffix)

theorem cons (h : Nests regions boundaries) {b : Boundary} (plain : ∀ i, b ≠ .region i) :
    Nests regions (b :: boundaries) := by
  intro i rest suffix
  rcases List.suffix_cons_iff.mp suffix with same | inside
  · exact absurd (List.cons.inj same).1.symm (plain i)
  · exact h i rest inside

theorem mono {regions' : Array TryRegion} (h : Nests regions boundaries)
    (keeps : ∀ (i : Nat) (region : TryRegion), regions[i]? = some region →
      ∃ region' : TryRegion, regions'[i]? = some region' ∧ region'.around = region.around) :
    Nests regions' boundaries := by
  intro i rest suffix
  obtain ⟨region, found, rfl⟩ := h i rest suffix
  exact keeps i region found

theorem not_mem_around (h : Nests regions boundaries) {rest : List Boundary}
    (suffix : .region i :: rest <:+ boundaries) : .region i ∉ rest := by
  intro mem
  obtain ⟨outer, inside⟩ := mem_region_iff.mp mem
  obtain ⟨region, found, around⟩ := h i rest suffix
  obtain ⟨region', found', around'⟩ :=
    h i outer (inside.trans ((List.suffix_cons _ _).trans suffix))
  rw [found] at found'
  cases found'
  have shorter := inside.length_le
  rw [← around', around, List.length_cons] at shorter
  omega

end Nests

/-! ## Steps of regions -/

/-- No label stands at two places. -/
def UniqueLabels (code : Array Emitted) : Prop :=
  ∀ {l i j}, LabelAt code l i → LabelAt code l j → i = j

namespace TryRegion

variable {region : TryRegion} {isOpen : Prop} {new : Emitted}

theorem labelAt_of_placed
    (unique : UniqueLabels (code.push new)) {i j : Nat} (there : LabelAt code l i)
    (found : LabelAt (code.push new) l j) : LabelAt code l j := by
  obtain rfl := unique (there.push new) found
  exact there

theorem protects_push_iff
    (sound : region.Sound pending code isOpen) (unique : UniqueLabels (code.push new)) (k : Nat) :
    region.Protects (code.push new) k ↔ region.Protects code k := by
  constructor
  · rintro (⟨range, mem, i, j, begins, ends, after, before⟩ | ⟨start, i, opened, begins, after⟩)
    · obtain ⟨i', j', begins', ends', -⟩ := sound.ranges range mem
      exact .inl ⟨range, mem, i, j, labelAt_of_placed unique begins' begins,
        labelAt_of_placed unique ends' ends, after, before⟩
    · obtain ⟨i', begins'⟩ := sound.start start opened
      exact .inr ⟨start, i, opened, labelAt_of_placed unique begins' begins, after⟩
  · rintro (⟨range, mem, i, j, begins, ends, after, before⟩ | ⟨start, i, opened, begins, after⟩)
    · exact .inl ⟨range, mem, i, j, begins.push new, ends.push new, after, before⟩
    · exact .inr ⟨start, i, opened, begins.push new, after⟩

theorem protects_size_iff (sound : region.Sound pending code isOpen) :
    region.Protects code code.size ↔ isOpen := by
  rw [← sound.isOpen]
  constructor
  · rintro (⟨range, mem, i, j, begins, ends, after, before⟩ | ⟨start, i, opened, -⟩)
    · exact absurd ends.lt_size (by omega)
    · exact opened ▸ rfl
  · intro opened
    obtain ⟨start, opened⟩ := Option.isSome_iff_exists.mp opened
    obtain ⟨i, begins⟩ := sound.start start opened
    exact .inr ⟨start, i, opened, begins, begins.lt_size⟩

theorem Sound.push (h : region.Sound pending code isOpen)
    (expected : ∀ l, Expected pending code l → Expected pending' (code.push new) l) :
    region.Sound pending' (code.push new) isOpen where
  handler := expected _ h.handler
  ranges range mem := by
    obtain ⟨i, j, begins, ends, before⟩ := h.ranges range mem
    exact ⟨i, j, begins.push new, ends.push new, before⟩
  start l opened := by
    obtain ⟨i, begins⟩ := h.start l opened
    exact ⟨i, begins.push new⟩
  isOpen := h.isOpen
  table := h.table

theorem protects_close_iff {start stop : Label} (opened : region.opened = some start)
    (ends : LabelAt code stop last) (before : k < last) :
    TryRegion.Protects
        { region with ranges := region.ranges ++ [(start, stop)], opened := none } code k ↔
      region.Protects code k := by
  constructor
  · rintro (⟨range, mem, i, j, begins, ends', after, before'⟩ | ⟨_, _, absent, -⟩)
    · rcases List.mem_append.mp mem with mem | mem
      · exact .inl ⟨range, mem, i, j, begins, ends', after, before'⟩
      · obtain rfl := List.mem_singleton.mp mem
        exact .inr ⟨start, i, opened, begins, after⟩
    · cases absent
  · rintro (⟨range, mem, i, j, begins, ends', after, before'⟩ | ⟨start', i, opened', begins, after⟩)
    · exact .inl ⟨range, List.mem_append_left _ mem, i, j, begins, ends', after, before'⟩
    · rw [opened, Option.some.injEq] at opened'
      subst opened'
      exact .inl ⟨(start, stop), by simp, i, last, begins, ends, after, before⟩

theorem protects_open_iff
    {start : Label} (closed : region.opened = none) (unique : UniqueLabels code)
    (begins : LabelAt code start last) (before : k < last) :
    TryRegion.Protects { region with opened := some start } code k ↔ region.Protects code k := by
  constructor
  · rintro (inside | ⟨start', i, opened, begins', after⟩)
    · exact .inl inside
    · cases opened
      obtain rfl := unique begins begins'
      omega
  · rintro (inside | ⟨start', i, opened, -⟩)
    · exact .inl inside
    · rw [closed] at opened
      cases opened

end TryRegion

namespace Regional

variable {opened opened' : List Nat} {boundaries : List Boundary} {regions : Array TryRegion}

theorem expect (h : Regional pending opened boundaries code regions) (more : pending ⊆ pending') :
    Regional pending' opened boundaries code regions where
  sound i region found :=
    { h.sound i region found with
      handler := (h.sound i region found).handler.imp (fun mem => more mem) id }
  covers := h.covers
  nests := h.nests
  current := h.current

theorem reframe (h : Regional pending opened boundaries code regions) {boundaries' : List Boundary}
    (current : Nests regions boundaries') : Regional pending opened boundaries' code regions :=
  { h with current }

theorem push (h : Regional pending opened boundaries code regions)
    (unique : UniqueLabels (code.push new))
    (expected : ∀ l, Expected pending code l → Expected pending' (code.push new) l)
    (around : new.boundaries = boundaries)
    (inSync : new.instruction.isLabel = false → ∀ i, i ∈ opened ↔ .region i ∈ boundaries) :
    Regional pending' opened boundaries (code.push new) regions where
  sound i region found := (h.sound i region found).push expected
  covers k e i region emitted plain found := by
    have sound := h.sound i region found
    rw [TryRegion.protects_push_iff sound unique]
    rcases getElem?_push_cases emitted with old | ⟨rfl, rfl⟩
    · exact h.covers k e i region old plain found
    · rw [TryRegion.protects_size_iff sound, around]
      exact inSync plain i
  nests k e emitted := by
    rcases getElem?_push_cases emitted with old | ⟨-, rfl⟩
    · exact h.nests k e old
    · rw [around]
      exact h.current
  current := h.current

theorem lt_last {last k : Nat} {e : Emitted} (placed : LabelAt code l last)
    (isLast : code.size = last + 1) (emitted : code[k]? = some e)
    (plain : e.instruction.isLabel = false) : k < last := by
  have inside : k < code.size := (Array.getElem?_eq_some_iff.mp emitted).1
  have different : k ≠ last := by
    rintro rfl
    obtain ⟨e', found, label⟩ := placed
    rw [emitted, Option.some.injEq] at found
    subst found
    simp [label, Instruction.isLabel] at plain
  omega

theorem pushRegion
    (h : Regional pending opened boundaries code regions) (unique : UniqueLabels code)
    {start handler : Label} (begins : LabelAt code start last)
    (isLast : code.size = last + 1) (handles : Expected pending code handler) :
    Regional pending (regions.size :: opened) (.region regions.size :: boundaries) code
      (regions.push { handler, opened := some start, around := boundaries }) := by
  have keeps : ∀ (i : Nat) (region : TryRegion), regions[i]? = some region →
      ∃ region' : TryRegion,
        (regions.push { handler, opened := some start, around := boundaries })[i]? = some region' ∧
          region'.around = region.around := by
    intro i region found
    exact ⟨region, getElem?_push_of_some found _, rfl⟩
  refine ⟨?_, ?_, fun k e emitted => (h.nests k e emitted).mono keeps, ?_⟩
  · intro i region found
    rw [Array.getElem?_push] at found
    split at found
    · cases found
      subst i
      exact ⟨handles, nofun, fun l same => by cases same; exact ⟨last, begins⟩, by simp, .inr rfl⟩
    · have sound := h.sound i region found
      have different : i ≠ regions.size := by assumption
      exact { sound with isOpen := sound.isOpen.trans (by simp [different]) }
  · intro k e i region emitted plain found
    rw [Array.getElem?_push] at found
    split at found
    · cases found
      subst i
      refine iff_of_false ?_ fun mem => ?_
      · rintro (⟨_, mem, -⟩ | ⟨start', i, same, begins', after⟩)
        · cases mem
        · cases same
          obtain rfl := unique begins begins'
          exact absurd (lt_last begins isLast emitted plain) (by omega)
      · exact Nat.lt_irrefl _ ((h.nests k e emitted).lt_size mem)
    · exact h.covers k e i region emitted plain found
  · intro i rest suffix
    rcases List.suffix_cons_iff.mp suffix with same | inside
    · obtain ⟨head, rfl⟩ := List.cons.inj same
      cases head
      exact ⟨{ handler, opened := some start, around := rest }, by simp, rfl⟩
    · exact (h.current.mono keeps) i rest inside

theorem modify (h : Regional pending opened boundaries code regions)
    (found : regions[i]? = some region) {f : TryRegion → TryRegion}
    (sound : (f region).Sound pending code (i ∈ opened'))
    (others : ∀ j, j ≠ i → (j ∈ opened' ↔ j ∈ opened))
    (around : (f region).around = region.around)
    (protects : ∀ (k : Nat) (e : Emitted), code[k]? = some e → e.instruction.isLabel = false →
      ((f region).Protects code k ↔ region.Protects code k)) :
    Regional pending opened' boundaries code (regions.modify i f) := by
  have keeps : ∀ (j : Nat) (other : TryRegion), regions[j]? = some other →
      ∃ other' : TryRegion, (regions.modify i f)[j]? = some other' ∧
        other'.around = other.around := by
    intro j other located
    rw [Array.getElem?_modify]
    by_cases same : i = j
    · subst same
      rw [found, Option.some.injEq] at located
      subst located
      exact ⟨f region, by simp [found], around⟩
    · exact ⟨other, by simp [same, located], rfl⟩
  refine ⟨?_, ?_, fun k e emitted => (h.nests k e emitted).mono keeps, h.current.mono keeps⟩
  · intro j other located
    rw [Array.getElem?_modify] at located
    by_cases same : i = j
    · subst same
      rw [if_pos rfl, found, Option.map_some, Option.some.injEq] at located
      exact located ▸ sound
    · rw [if_neg same] at located
      have old := h.sound j other located
      exact { old with isOpen := old.isOpen.trans (others j (Ne.symm same)).symm }
  · intro k e j other emitted plain located
    rw [Array.getElem?_modify] at located
    by_cases same : i = j
    · subst same
      rw [if_pos rfl, found, Option.map_some, Option.some.injEq] at located
      rw [← located, protects k e emitted plain]
      exact h.covers k e i region emitted plain found
    · rw [if_neg same] at located
      exact h.covers k e j other emitted plain located

theorem closeRange (h : Regional pending opened boundaries code regions)
    (found : regions[i]? = some region) {start stop : Label}
    (isOpen : region.opened = some start) (ends : LabelAt code stop last)
    (isLast : code.size = last + 1) (distinct : start ≠ stop) :
    Regional pending (opened.filter (· ≠ i)) boundaries code
      (regions.modify i fun region =>
        { region with ranges := region.ranges ++ [(start, stop)], opened := none }) := by
  have sound := h.sound i region found
  refine h.modify found ?_ (fun j different => by simp [different]) rfl fun k e emitted plain => ?_
  · refine ⟨sound.handler, fun range mem => ?_, nofun, by simp, .inl (by simp)⟩
    rcases List.mem_append.mp mem with mem | mem
    · exact sound.ranges range mem
    · obtain rfl := List.mem_singleton.mp mem
      obtain ⟨first, begins⟩ := sound.start start isOpen
      refine ⟨first, last, begins, ends, ?_⟩
      have inside := begins.lt_size
      have apart : first ≠ last := by
        rintro rfl
        obtain ⟨e, emitted, label⟩ := begins
        obtain ⟨e', emitted', label'⟩ := ends
        rw [emitted, Option.some.injEq] at emitted'
        subst emitted'
        rw [label, Instruction.label.injEq] at label'
        exact distinct label'
      omega
  · exact TryRegion.protects_close_iff isOpen ends (lt_last ends isLast emitted plain)

theorem resumeRange
    (h : Regional pending opened boundaries code regions) (unique : UniqueLabels code)
    (found : regions[i]? = some region) (closed : region.opened = none)
    {start : Label} (begins : LabelAt code start last)
    (isLast : code.size = last + 1) :
    Regional pending (i :: opened) boundaries code
      (regions.modify i fun region => { region with opened := some start }) := by
  have sound := h.sound i region found
  refine h.modify found ?_ (fun j different => by simp [different]) rfl fun k e emitted plain => ?_
  · refine ⟨sound.handler, sound.ranges, fun l same => ?_, by simp, .inr rfl⟩
    cases same
    exact ⟨last, begins⟩
  · exact TryRegion.protects_open_iff closed unique begins (lt_last begins isLast emitted plain)

end Regional

end AccScript
