import AccScript.Proofs.Code.Operands
import AccScript.Proofs.Survey.Walk

/-!
# Internal names

Every unit has an internal name.  That of a function consists of a tag and the name that the function
has in the source; the tag is the sequence number of the function, unless no other function has its
name.  The tag has no `#` in it, so both can be read off an internal name, and no two units share one.
-/

namespace AccScript

variable {facts facts' : FunctionFacts}

namespace FunctionFacts

def tag (counts : NameMap Nat) (facts : FunctionFacts) : String :=
  if facts.name ≠ "" ∧ counts.get? facts.name = some 1 then "*" else toString facts.sequence

theorem toList_internalName (counts : NameMap Nat) (facts : FunctionFacts) :
    (facts.internalName counts).toList =
      '#' :: ((facts.tag counts).toList ++ '#' :: facts.name.toList) := by
  unfold internalName tag
  by_cases empty : facts.name = ""
  · simp [empty]
  · by_cases single : counts.get? facts.name = some 1
    · simp [empty, single]
    · simp [empty, single]

theorem not_mem_tag (counts : NameMap Nat) (facts : FunctionFacts) :
    '#' ∉ (facts.tag counts).toList := by
  unfold tag
  split
  · decide
  · rw [Nat.toString_eq_repr, Nat.toList_repr]
    intro mem
    have digit := Nat.isDigit_of_mem_toDigits (by decide) (by decide) mem
    cases digit

theorem internalName_inj {counts : NameMap Nat}
    (same : facts.internalName counts = facts'.internalName counts) :
    facts.tag counts = facts'.tag counts ∧ facts.name = facts'.name := by
  have parts := congrArg String.toList same
  rw [toList_internalName, toList_internalName] at parts
  have parts := (List.cons.inj parts).2
  have lengths : (facts.tag counts).toList.length = (facts'.tag counts).toList.length := by
    have first := congrArg (List.idxOf '#') parts
    rwa [List.idxOf_append_of_notMem (not_mem_tag counts facts),
      List.idxOf_append_of_notMem (not_mem_tag counts facts'), List.idxOf_cons_self,
      List.idxOf_cons_self] at first
  obtain ⟨tags, rest⟩ := List.append_inj parts lengths
  exact ⟨String.toList_inj.mp tags, String.toList_inj.mp (List.cons.inj rest).2⟩

theorem internalName_ne_main (counts : NameMap Nat) (facts : FunctionFacts) :
    facts.internalName counts ≠ mainUnitName := by
  intro same
  have initial := congrArg (fun s => s.toList.head?) same
  rw [toList_internalName] at initial
  cases initial

end FunctionFacts

theorem Counted.eq_of_internalName
    {functions : OrderedMap NodeId FunctionFacts} {order : Array NodeId} {counts : NameMap Nat}
    (counted : Counted functions order counts) {node other : NodeId}
    (registered : functions.get? node = some facts) (registered' : functions.get? other = some facts')
    (same : facts.internalName counts = facts'.internalName counts) : node = other := by
  obtain ⟨tags, names⟩ := FunctionFacts.internalName_inj same
  unfold FunctionFacts.tag at tags
  rw [← names] at tags
  by_cases single : facts.name ≠ "" ∧ counts.get? facts.name = some 1
  · exact counted.shared node facts other facts' registered registered' single.1 names single.2
  · rw [if_neg single, if_neg single] at tags
    replace tags := eq_of_toString tags
    have place := (counted.sequence node facts registered).2
    have place' := (counted.sequence other facts' registered').2
    rw [tags, place'] at place
    exact (Option.some.inj place).symm

namespace Survey

variable {σ : Survey}

/-! ## The names of all units -/

theorem get?_foldl_nameUnit (σ : Survey) (order : List NodeId) (names : OrderedMap NodeId String)
    (node : NodeId) :
    (order.foldl σ.nameUnit names).get? node =
      match σ.functions.get? node with
      | some facts =>
          if node ∈ order then some (facts.internalName σ.nameCounts) else names.get? node
      | none => names.get? node := by
  induction order generalizing names with
  | nil => cases σ.functions.get? node <;> rfl
  | cons first rest ih =>
    rw [List.foldl_cons, ih, nameUnit]
    cases registered : σ.functions.get? first with
    | none =>
      cases own : σ.functions.get? node with
      | none => rfl
      | some facts =>
        have apart : node ≠ first := by
          rintro rfl
          rw [registered] at own
          cases own
        simp [apart]
    | some facts =>
      by_cases same : node = first
      · subst same
        simp [registered, OrderedMap.get?_insert]
      · cases σ.functions.get? node <;> simp [OrderedMap.get?_insert, same]

theorem get?_internalNames
    (counted : σ.Counts) (p : Program) (node : NodeId) :
    (σ.internalNames p).get? node =
      match σ.functions.get? node with
      | some facts => some (facts.internalName σ.nameCounts)
      | none => if node = p.id then some mainUnitName else none := by
  rw [internalNames, get?_foldl_nameUnit]
  cases registered : σ.functions.get? node with
  | none => exact OrderedMap.get?_cons (p.id, mainUnitName) [] node
  | some facts =>
    obtain ⟨-, place⟩ := counted.sequence node facts registered
    have mem : node ∈ σ.functionOrder.toList :=
      Array.mem_toList_iff.mpr (Array.mem_of_getElem? place)
    simp [mem]

theorem eq_of_internalNames
    (counted : σ.Counts) {p : Program}
    {node other : NodeId} {name : String} (named : (σ.internalNames p).get? node = some name)
    (named' : (σ.internalNames p).get? other = some name) : node = other := by
  rw [get?_internalNames counted] at named named'
  cases registered : σ.functions.get? node with
  | some facts =>
    rw [registered] at named
    cases registered' : σ.functions.get? other with
    | some facts' =>
      rw [registered'] at named'
      exact counted.eq_of_internalName registered registered'
        ((Option.some.inj named).trans (Option.some.inj named').symm)
    | none =>
      simp only [registered', Option.ite_none_right_eq_some, Option.some.injEq] at named'
      exact absurd ((Option.some.inj named).trans named'.2.symm)
        (facts.internalName_ne_main σ.nameCounts)
  | none =>
    simp only [registered, Option.ite_none_right_eq_some, Option.some.injEq] at named
    cases registered' : σ.functions.get? other with
    | some facts' =>
      rw [registered'] at named'
      exact absurd ((Option.some.inj named').trans named.2.symm)
        (facts'.internalName_ne_main σ.nameCounts)
    | none =>
      simp only [registered', Option.ite_none_right_eq_some, Option.some.injEq] at named'
      exact named.1.trans named'.1.symm

/-! ## Every walk counts its functions -/

variable {p : Program} {options : Options}

theorem counts_ofProgram (run : ofProgram p options = .ok σ) : σ.Counts := by
  have outcome := Walk.follows_walkStatements p (start p options)
    (rooted_start p options)
  obtain ⟨⟨_, μ⟩, walked, finished⟩ := exists_of_bind_eq_ok run
  cases finished
  obtain ⟨_, -, -, -, -, counts⟩ := (walked ▸ outcome).of_ok
  have started : (start p options).Counts := by
    constructor <;> simp [start, OrderedMap.get?]
  have counted := counts started
  rw [finishExports]
  cases μ.moduleRecord <;> exact counted

/-- Every function that a walk has registered has a name of its own, whatever the functions are called
and even if nodes of the program share their identities; the name of the main unit is that of the
program alone. -/
theorem internalNames_injective (run : ofProgram p options = .ok σ) :
    (∀ node facts, σ.functions.get? node = some facts →
      ∃ name, (σ.internalNames p).get? node = some name) ∧
    (∀ node other name, (σ.internalNames p).get? node = some name →
      (σ.internalNames p).get? other = some name → node = other) ∧
    ∀ node, (σ.internalNames p).get? node = some mainUnitName → node = p.id := by
  have counted := counts_ofProgram run
  refine ⟨fun node facts registered => ?_, fun node other name => eq_of_internalNames counted,
    fun node named => ?_⟩
  · rw [get?_internalNames counted, registered]
    exact ⟨_, rfl⟩
  · rw [get?_internalNames counted] at named
    cases registered : σ.functions.get? node with
    | some facts =>
      rw [registered] at named
      exact absurd (Option.some.inj named) (facts.internalName_ne_main σ.nameCounts)
    | none =>
      simp only [registered, Option.ite_none_right_eq_some] at named
      exact named.1

end Survey

/-- Two functions `f`, one `#1#f` and one `main`. -/
def Program.namesakes : Program :=
  let function (id : NodeId) (name : String) : Statement :=
    ⟨id, ⟨1, 0⟩, .functionDecl ⟨id + 1, ⟨1, 0⟩, some ⟨name, id + 2⟩, .normal, false, [],
      .block ⟨id + 3, []⟩, false⟩ .none⟩
  { id := 0, position := ⟨1, 0⟩, isStrict := false, nextNodeId := 40, derivedFrom := []
    statements := [function 1 "f", function 11 "f", function 21 "#1#f", function 31 "main"] }

theorem internalNames_namesakes : ∃ σ, Survey.ofProgram .namesakes {} = .ok σ ∧
    σ.internalNames .namesakes = [(0, "func_main_0"), (2, "#1#f"), (12, "#2#f"), (22, "#*##1#f"),
      (32, "#4#main")] ∧
    ∀ node, (σ.internalNames .namesakes).get? node = some mainUnitName → node = 0 := by
  have names : ((Survey.ofProgram .namesakes {}).map (·.internalNames .namesakes)).toOption =
      some [(0, "func_main_0"), (2, "#1#f"), (12, "#2#f"), (22, "#*##1#f"), (32, "#4#main")] := by
    decide +kernel
  cases run : Survey.ofProgram .namesakes {} with
  | error failure =>
    rw [run] at names
    cases names
  | ok σ =>
    rw [run] at names
    exact ⟨σ, rfl, Option.some.inj names, (Survey.internalNames_injective run).2.2⟩

end AccScript
